import Mathlib

/-! # Doubly linked lists between two anchors

The pointers of a list whose head and tail are nodes themselves, so that neither inserting at the
end nor removing needs a case distinction. `Links.IsList` says which nodes the pointers link; the
operations are stated in terms of it.
-/

namespace LinkedList

open Function List

variable {ν : Type}

/-- A pointer: to the anchor before the first node, to the one behind the last, or to a node. -/
inductive Link (ν : Type) where
  | null
  | first
  | last
  | node (n : ν)
  deriving DecidableEq

/-- The pointers of the anchors and of all nodes. -/
structure Links (ν : Type) where
  next : Link ν → Link ν
  prev : Link ν → Link ν

open Link

/-- The pointers of the empty list. -/
def Links.empty : Links ν where
  next := fun a => match a with
    | first => last
    | _ => null
  prev := fun a => match a with
    | last => first
    | _ => null

/-- `a` leads through the nodes `xs` to `b`, and back. -/
def Links.Segment (l : Links ν) : Link ν → List ν → Link ν → Prop
  | a, [], b => l.next a = b ∧ l.prev b = a
  | a, x :: xs, b => (l.next a = node x ∧ l.prev (node x) = a) ∧ l.Segment (node x) xs b

/-- The pointers link just the nodes `xs`. -/
structure Links.IsList (l : Links ν) (xs : List ν) : Prop where
  segment : l.Segment first xs last
  nodup : xs.Nodup
  end_null : l.next last = null

theorem Links.empty_isList : (Links.empty : Links ν).IsList [] := ⟨⟨rfl, rfl⟩, nodup_nil, rfl⟩

theorem Links.segment_append (l : Links ν) (x : ν) (ys : List ν) (b : Link ν) :
    ∀ (xs : List ν) (a : Link ν),
      l.Segment a (xs ++ x :: ys) b ↔ l.Segment a xs (node x) ∧ l.Segment (node x) ys b
  | [], _ => Iff.rfl
  | _ :: xs, _ => by
    simp only [cons_append, Links.Segment, Links.segment_append l x ys b xs, and_assoc]

/-- A segment only depends on the pointers of its own nodes. -/
theorem Links.Segment.congr {l l' : Links ν} {b : Link ν} :
    ∀ {xs : List ν} {a : Link ν}, l.Segment a xs b →
      (∀ c, c = a ∨ (∃ x ∈ xs, c = node x) → l'.next c = l.next c) →
      (∀ c, c = b ∨ (∃ x ∈ xs, c = node x) → l'.prev c = l.prev c) → l'.Segment a xs b
  | [], a, h, hn, hp => by
    refine ⟨?_, ?_⟩
    · rw [hn a (Or.inl rfl)]
      exact h.1
    · rw [hp b (Or.inl rfl)]
      exact h.2
  | x :: xs, a, h, hn, hp => by
    refine ⟨⟨?_, ?_⟩, ?_⟩
    · rw [hn a (Or.inl rfl)]
      exact h.1.1
    · rw [hp _ (Or.inr ⟨x, mem_cons_self .., rfl⟩)]
      exact h.1.2
    · apply h.2.congr
      · rintro c (rfl | ⟨y, hy, rfl⟩)
        · exact hn _ (Or.inr ⟨x, mem_cons_self .., rfl⟩)
        · exact hn _ (Or.inr ⟨y, mem_cons_of_mem _ hy, rfl⟩)
      · rintro c (rfl | ⟨y, hy, rfl⟩)
        · exact hp _ (Or.inl rfl)
        · exact hp _ (Or.inr ⟨y, mem_cons_of_mem _ hy, rfl⟩)

theorem Links.Segment.end_eq {l : Links ν} {b : Link ν} :
    ∀ {xs : List ν} {a : Link ν}, l.Segment a xs b →
      l.next (l.prev b) = b ∧ (l.prev b = a ∧ xs = [] ∨ ∃ x ∈ xs, l.prev b = node x)
  | [], _, h => ⟨by rw [h.2]; exact h.1, Or.inl ⟨h.2, rfl⟩⟩
  | x :: xs, _, h => by
    obtain ⟨hnext, hprev⟩ := h.2.end_eq
    refine ⟨hnext, Or.inr ?_⟩
    rcases hprev with ⟨hx, -⟩ | ⟨y, hy, hprev⟩
    · exact ⟨x, mem_cons_self .., hx⟩
    · exact ⟨y, mem_cons_of_mem _ hy, hprev⟩

theorem Links.IsList.next_first_iff {l : Links ν} {xs : List ν} (h : l.IsList xs) (n : ν) :
    l.next first = node n ↔ xs.head? = some n := by
  cases xs with
  | nil =>
    rw [show l.next first = last from h.segment.1]
    exact ⟨nofun, nofun⟩
  | cons x xs =>
    rw [show l.next first = node x from h.segment.1.1]
    simp

theorem Links.IsList.around {l : Links ν} {xs ys : List ν} {n : ν}
    (h : l.IsList (xs ++ n :: ys)) :
    l.Segment first xs (node n) ∧ l.Segment (node n) ys last ∧ n ∉ xs ∧ n ∉ ys ∧
      ∀ x ∈ xs, x ∉ ys := by
  obtain ⟨hxs, hys⟩ := (l.segment_append n ys last xs first).mp h.segment
  obtain ⟨-, hcons, hdisj⟩ := nodup_append.mp h.nodup
  refine ⟨hxs, hys, ?_, (nodup_cons.mp hcons).1, ?_⟩
  · exact fun hn => hdisj n hn n (mem_cons_self ..) rfl
  · exact fun x hx hy => hdisj x hx x (mem_cons_of_mem _ hy) rfl

variable [DecidableEq ν]

/-- Inserting a node at the end. -/
def Links.add (l : Links ν) (n : ν) : Links ν where
  next := update (update l.next (node n) last) (l.prev last) (node n)
  prev := update (update l.prev (node n) (l.prev last)) last (node n)

/-- Taking a node out. -/
def Links.remove (l : Links ν) (n : ν) : Links ν where
  next := update l.next (l.prev (node n)) (l.next (node n))
  prev := update l.prev (l.next (node n)) (l.prev (node n))

/-- The node behind `n`, if it is not the last one. -/
def Links.nextNode (l : Links ν) (n : ν) : Option ν :=
  match l.next (node n) with
  | node m => if l.next (node m) = null then none else some m
  | _ => none

theorem Links.IsList.nextNode_eq {l : Links ν} {xs ys : List ν} {n : ν}
    (h : l.IsList (xs ++ n :: ys)) : l.nextNode n = ys.head? := by
  have hseg := ((l.segment_append n ys last xs first).mp h.segment).2
  cases ys with
  | nil =>
    have hnext : l.next (node n) = last := hseg.1
    rw [Links.nextNode, hnext]
    rfl
  | cons y ys =>
    have hnext : l.next (node n) = node y := hseg.1.1
    have hne : l.next (node y) ≠ null := by
      cases ys with
      | nil => rw [hseg.2.1]; exact nofun
      | cons z zs => rw [hseg.2.1.1]; exact nofun
    rw [Links.nextNode, hnext]
    simp only [if_neg hne]
    rfl

section

variable (l : Links ν) (n : ν) (c : Link ν)

theorem Links.add_next : (l.add n).next c =
      if c = l.prev last then node n else if c = node n then last else l.next c := by
  simp [Links.add, update_apply]

theorem Links.add_prev : (l.add n).prev c =
      if c = last then node n else if c = node n then l.prev last else l.prev c := by
  simp [Links.add, update_apply]

theorem Links.remove_next :
    (l.remove n).next c = if c = l.prev (node n) then l.next (node n) else l.next c := by
  simp [Links.remove, update_apply]

theorem Links.remove_prev :
    (l.remove n).prev c = if c = l.next (node n) then l.prev (node n) else l.prev c := by
  simp [Links.remove, update_apply]

end

theorem Links.IsList.add {l : Links ν} {xs : List ν} (h : l.IsList xs) {n : ν} (hn : n ∉ xs) :
    (l.add n).IsList (xs ++ [n]) := by
  obtain ⟨-, hend⟩ := h.segment.end_eq
  have hne : node n ≠ l.prev last := by
    rcases hend with ⟨hp, -⟩ | ⟨x, hx, hp⟩
    · rw [hp]
      exact nofun
    · rw [hp]
      rintro ⟨⟩
      exact hn hx
  have hlast : last ≠ l.prev last := by
    rcases hend with ⟨hp, -⟩ | ⟨x, -, hp⟩ <;> (rw [hp]; exact nofun)
  have hnew : (l.add n).next (node n) = last ∧ (l.add n).prev last = node n := by
    simp [Links.add_next, Links.add_prev, hne]
  refine ⟨?_, ?_, ?_⟩
  · rw [Links.segment_append]
    refine ⟨?_, hnew⟩
    -- the nodes before, up to the last of them, are as they were
    rcases eq_nil_or_concat xs with rfl | ⟨init, y, rfl⟩
    · have hfirst : l.prev last = first := h.segment.2
      exact ⟨by simp [Links.add_next, hfirst], by simp [Links.add_prev, hfirst]⟩
    · rw [concat_eq_append] at h hn ⊢
      have hsplit := (l.segment_append y [] last init first).mp h.segment
      have hy : l.prev last = node y := hsplit.2.2
      have hyinit : y ∉ init := by
        intro hmem
        exact (nodup_append.mp h.nodup).2.2 y hmem y (mem_singleton_self y) rfl
      have hprev : ∀ x ∈ init ++ [y], (l.add n).prev (node x) = l.prev (node x) := by
        intro x hx
        have hxn : x ≠ n := by
          rintro rfl
          exact hn hx
        simp [Links.add_prev, hxn]
      rw [Links.segment_append]
      constructor
      · apply hsplit.1.congr
        · rintro c (rfl | ⟨x, hx, rfl⟩)
          · simp [Links.add_next, hy]
          · have hxy : x ≠ y := by
              rintro rfl
              exact hyinit hx
            have hxn : x ≠ n := by
              rintro rfl
              exact hn (mem_append_left _ hx)
            simp [Links.add_next, hy, hxy, hxn]
        · rintro c (rfl | ⟨x, hx, rfl⟩)
          · exact hprev y (by simp)
          · exact hprev x (by simp [hx])
      · exact ⟨by simp [Links.add_next, hy], by simp [Links.add_prev, hy]⟩
  · rw [nodup_append]
    refine ⟨h.nodup, nodup_singleton n, ?_⟩
    rintro x hx y hy rfl
    rw [mem_singleton] at hy
    exact hn (hy ▸ hx)
  · rw [Links.add_next, if_neg hlast, if_neg nofun]
    exact h.end_null

/-- Two segments with one node between them become one without it. -/
theorem Links.Segment.join {l : Links ν} {n : ν} {ys : List ν}
    (hys : l.Segment (node n) ys last) (hyn : ys.Nodup) :
    ∀ {xs : List ν} {a : Link ν}, l.Segment a xs (node n) → (∀ x ∈ n :: xs, a ≠ node x) →
      (∀ y ∈ ys, a ≠ node y) → (n :: xs).Nodup → (∀ x ∈ xs, x ∉ ys) →
      (l.remove n).Segment a (xs ++ ys) last
  | [], a, hxs, ha, haout, _, _ => by
    have hprev : l.prev (node n) = a := hxs.2
    cases ys with
    | nil =>
      have hnext : l.next (node n) = last := hys.1
      exact ⟨by simp [Links.remove_next, hprev, hnext], by simp [Links.remove_prev, hprev, hnext]⟩
    | cons y ys =>
      have hnext : l.next (node n) = node y := hys.1.1
      refine ⟨⟨?_, ?_⟩, hys.2.congr ?_ ?_⟩
      · simp [Links.remove_next, hprev, hnext]
      · simp [Links.remove_prev, hprev, hnext]
      · intro c hc
        have hca : c ≠ a := by
          rcases hc with rfl | ⟨z, hz, rfl⟩
          · exact (haout y (mem_cons_self ..)).symm
          · exact (haout z (mem_cons_of_mem _ hz)).symm
        rw [Links.remove_next, hprev, if_neg hca]
      · intro c hc
        have hcy : c ≠ node y := by
          rcases hc with rfl | ⟨z, hz, rfl⟩
          · exact nofun
          · rintro ⟨⟩
            exact (nodup_cons.mp hyn).1 hz
        rw [Links.remove_prev, hnext, if_neg hcy]
  | x :: xs, a, hxs, ha, haout, hnodup, hdisj => by
    have hap : a ≠ l.prev (node n) := by
      rcases hxs.2.end_eq.2 with ⟨hp, -⟩ | ⟨z, hz, hp⟩
      · rw [hp]
        exact ha x (by simp)
      · rw [hp]
        exact ha z (by simp [hz])
    have hxnext : (node x : Link ν) ≠ l.next (node n) := by
      cases ys with
      | nil =>
        rw [hys.1]
        exact nofun
      | cons y ys =>
        rw [hys.1.1]
        rintro ⟨⟩
        exact hdisj x (mem_cons_self ..) (mem_cons_self ..)
    refine ⟨⟨?_, ?_⟩, ?_⟩
    · rw [Links.remove_next, if_neg hap]
      exact hxs.1.1
    · rw [Links.remove_prev, if_neg hxnext]
      exact hxs.1.2
    · obtain ⟨hnx, hxs'⟩ := nodup_cons.mp hnodup
      obtain ⟨hxxs, hxs''⟩ := nodup_cons.mp hxs'
      refine hys.join hyn hxs.2 ?_ ?_ ?_ (fun z hz => hdisj z (mem_cons_of_mem _ hz))
      · rintro z hz ⟨⟩
        rcases mem_cons.mp hz with rfl | hz
        · exact hnx (mem_cons_self ..)
        · exact hxxs hz
      · rintro y hy ⟨⟩
        exact hdisj _ (mem_cons_self ..) hy
      · exact nodup_cons.mpr ⟨fun hn => hnx (mem_cons_of_mem _ hn), hxs''⟩

theorem Links.IsList.remove {l : Links ν} {xs ys : List ν} {n : ν}
    (h : l.IsList (xs ++ n :: ys)) : (l.remove n).IsList (xs ++ ys) := by
  obtain ⟨hxs, hys, hnx, hny, hdisj⟩ := h.around
  obtain ⟨hxn, hcons, -⟩ := nodup_append.mp h.nodup
  have hyn := (nodup_cons.mp hcons).2
  refine ⟨?_, ?_, ?_⟩
  · exact hys.join hyn hxs (fun _ _ => nofun) (fun _ _ => nofun)
      (nodup_cons.mpr ⟨hnx, hxn⟩) hdisj
  · rw [nodup_append]
    exact ⟨hxn, hyn, fun x hx y hy hxy => hdisj x hx (hxy ▸ hy)⟩
  · have hne : last ≠ l.prev (node n) := by
      rcases hxs.end_eq.2 with ⟨hp, -⟩ | ⟨x, -, hp⟩ <;> (rw [hp]; exact nofun)
    rw [Links.remove_next, if_neg hne]
    exact h.end_null

end LinkedList

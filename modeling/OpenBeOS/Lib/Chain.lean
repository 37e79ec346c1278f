import Mathlib

/-! # Chains of pointers

Lists linked through a `next` pointer in their nodes, `none` being the null pointer. `Leads` says
which nodes the pointers link; redirecting the pointer of one node (`Leads.relink`) is all that
inserting and taking out come to. `walk` is the loop that looks for a node and remembers the one
before it.
-/

namespace Chain

open List

variable {α : Type}

/-- `next` leads from the pointer `p` through the nodes `xs` to the pointer `q`. -/
def Leads (next : α → Option α) : Option α → List α → Option α → Prop
  | p, [], q => p = q
  | p, x :: xs, q => p = some x ∧ Leads next (next x) xs q

theorem leads_append (next : α → Option α) (ys : List α) (q : Option α) :
    ∀ (xs : List α) (p : Option α),
      Leads next p (xs ++ ys) q ↔ ∃ m, Leads next p xs m ∧ Leads next m ys q
  | [], p => by simp [Leads]
  | x :: xs, p => by simp [Leads, leads_append next ys q xs, and_assoc]

theorem leads_append_cons {next : α → Option α} {xs ys : List α} {y : α} {p q : Option α} :
    Leads next p (xs ++ y :: ys) q ↔ Leads next p xs (some y) ∧ Leads next (next y) ys q := by
  rw [leads_append]
  constructor
  · rintro ⟨m, hxs, rfl, hys⟩
    exact ⟨hxs, hys⟩
  · rintro ⟨hxs, hys⟩
    exact ⟨some y, hxs, rfl, hys⟩

theorem leads_snoc {next : α → Option α} {xs : List α} {x : α} {p q : Option α} :
    Leads next p (xs ++ [x]) q ↔ Leads next p xs (some x) ∧ next x = q :=
  leads_append_cons

theorem Leads.congr {next next' : α → Option α} {q : Option α} :
    ∀ {xs : List α} {p : Option α}, Leads next p xs q → (∀ x ∈ xs, next' x = next x) →
      Leads next' p xs q
  | [], _, h, _ => h
  | x :: xs, _, h, hsame => by
    refine ⟨h.1, ?_⟩
    rw [hsame x (mem_cons_self ..)]
    exact h.2.congr fun y hy => hsame y (mem_cons_of_mem _ hy)

section

variable {next : α → Option α}

theorem Leads.head {xs : List α} {p : Option α} (h : Leads next p xs none) :
    p = xs.head? := by
  cases xs with
  | nil => exact h
  | cons x xs => exact h.1

theorem Leads.unique :
    ∀ {xs ys : List α} {p : Option α}, Leads next p xs none → Leads next p ys none → xs = ys
  | [], [], _, _, _ => rfl
  | [], y :: ys, p, h, h' => by
    rw [show p = none from h] at h'
    cases h'.1
  | x :: xs, [], p, h, h' => by
    rw [show p = none from h'] at h
    cases h.1
  | x :: xs, y :: ys, p, h, h' => by
    obtain rfl : x = y := Option.some.inj (h.1.symm.trans h'.1)
    rw [h.2.unique h'.2]

theorem Leads.eq_nil {xs : List α} (h : Leads next none xs none) : xs = [] :=
  List.head?_eq_none_iff.mp h.head.symm

theorem Leads.next_mem_tail {y : α} :
    ∀ {xs : List α} {p : Option α} {z : α}, Leads next p xs none → z ∈ xs → next z = some y →
      y ∈ xs.tail
  | x :: xs, p, z, h, hz, hy => by
    rcases mem_cons.mp hz with rfl | hz
    · have hhead : xs.head? = some y := h.2.head.symm.trans hy
      exact mem_of_mem_head? hhead
    · exact mem_of_mem_tail (h.2.next_mem_tail hz hy)

theorem Leads.pred {y : α} :
    ∀ {xs : List α} {p : Option α}, Leads next p xs none → y ∈ xs →
      p = some y ∨ ∃ z ∈ xs, next z = some y
  | x :: xs, p, h, hy => by
    rcases mem_cons.mp hy with rfl | hy
    · exact .inl h.1
    · refine .inr ?_
      rcases h.2.pred hy with hx | ⟨z, hz, hnext⟩
      · exact ⟨x, mem_cons_self, hx⟩
      · exact ⟨z, mem_cons_of_mem _ hz, hnext⟩

theorem Leads.next_inj {y : α} :
    ∀ {xs : List α} {p : Option α} {z z' : α}, Leads next p xs none → xs.Nodup → z ∈ xs → z' ∈ xs →
      next z = some y → next z' = some y → z = z'
  | x :: xs, p, z, z', h, hnodup, hz, hz', hy, hy' => by
    have hfirst : ∀ {w}, next x = some y → w ∈ xs → next w ≠ some y := by
      intro w hx hw hnext
      have htail := h.2.next_mem_tail hw hnext
      have hhead : xs.head? = some y := h.2.head.symm.trans hx
      obtain ⟨rest, rfl⟩ := List.head?_eq_some_iff.mp hhead
      exact (nodup_cons.mp (nodup_cons.mp hnodup).2).1 htail
    rcases mem_cons.mp hz with rfl | hzs
    · rcases mem_cons.mp hz' with rfl | hzs'
      · rfl
      · exact absurd hy' (hfirst hy hzs')
    · rcases mem_cons.mp hz' with rfl | hzs'
      · exact absurd hy (hfirst hy' hzs)
      · exact h.2.next_inj (nodup_cons.mp hnodup).2 hzs hzs' hy hy'

theorem Leads.head_notMem {x : α} {xs : List α} {p : Option α}
    (h : Leads next p (x :: xs) none) : x ∉ xs := by
  intro hx
  obtain ⟨ys, zs, rfl⟩ := append_of_mem hx
  obtain ⟨rfl, hrest⟩ := h
  have hsame := (leads_append_cons.mp hrest).2.unique hrest
  have hlength := congrArg List.length hsame
  simp only [length_cons, length_append] at hlength
  omega

end

/-- The pointer after some steps from a pointer. -/
def follow (next : α → Option α) : Nat → Option α → Option α
  | 0, p => p
  | i + 1, p => follow next i (p.bind next)

theorem follow_none (next : α → Option α) (i : Nat) : follow next i none = none := by
  induction i with
  | zero => rfl
  | succ i ih => exact ih

theorem Leads.follow {next : α → Option α} :
    ∀ {xs : List α} {p : Option α} (i : Nat), Leads next p xs none → Chain.follow next i p = xs[i]?
  | [], _, i, h => by
    rw [show _ = none from h, follow_none]
    rfl
  | x :: xs, p, 0, h => h.1
  | x :: xs, p, i + 1, h => by
    rw [Chain.follow, h.1, Option.bind_some, h.2.follow i]
    rfl

variable [DecidableEq α]

section

variable {next : α → Option α}

theorem Leads.update {xs : List α} {w : α} {p q r : Option α}
    (h : Leads next p xs q) (hw : w ∉ xs) : Leads (Function.update next w r) p xs q := by
  apply h.congr
  intro x hx
  rw [Function.update_of_ne]
  rintro rfl
  exact hw hx

theorem Leads.relink {xs ys zs : List α} {w : α} {p q m q' : Option α}
    (h : Leads next p (xs ++ w :: ys) q) (hxs : w ∉ xs) (hm : Leads next m zs q') (hzs : w ∉ zs) :
    Leads (Function.update next w m) p (xs ++ w :: zs) q' := by
  rw [leads_append_cons] at h ⊢
  rw [Function.update_self]
  exact ⟨h.1.update hxs, hm.update hzs⟩

theorem Leads.unlink {xs ys : List α} {w x : α} {p q : Option α}
    (h : Leads next p (xs ++ w :: x :: ys) q) (hxs : w ∉ xs) (hys : w ∉ ys) :
    Leads (Function.update next w (next x)) p (xs ++ w :: ys) q :=
  h.relink hxs ((leads_append_cons.mp h).2.2) hys

theorem Leads.push {xs : List α} {x : α} {p q : Option α}
    (h : Leads next p xs q) (hx : x ∉ xs) :
    Leads (Function.update next x p) (some x) (x :: xs) q := by
  refine ⟨rfl, ?_⟩
  rw [Function.update_self]
  exact h.update hx

theorem Leads.extend {xs : List α} {w x : α} {p q : Option α}
    (h : Leads next p (xs ++ [w]) q) (hw : w ∉ xs) (hx : next x = none) (hwx : w ≠ x) :
    Leads (Function.update next w (some x)) p (xs ++ [w, x]) none :=
  h.relink hw ⟨rfl, hx⟩ (by simpa using hwx)

theorem Leads.remove {xs ys : List α} {x : α} {p q : Option α}
    (h : Leads next p (xs ++ x :: ys) q) (hnodup : (xs ++ x :: ys).Nodup) :
    match xs.getLast? with
    | none => Leads next (next x) (xs ++ ys) q
    | some w => Leads (Function.update next w (next x)) p (xs ++ ys) q := by
  rcases eq_nil_or_concat xs with rfl | ⟨init, w, rfl⟩
  · exact h.2
  · rw [concat_eq_append] at h hnodup ⊢
    rw [append_assoc] at h hnodup ⊢
    rw [List.getLast?_concat]
    obtain ⟨-, hcons, hdisj⟩ := nodup_append.mp hnodup
    have hw := (nodup_cons.mp hcons).1
    refine h.unlink (fun hmem => hdisj w hmem w (mem_cons_self ..) rfl) fun hmem => ?_
    exact hw (mem_cons_of_mem _ hmem)

end

/-! ## Several chains -/

section Chains

variable {κ : Type} [DecidableEq κ]

omit [DecidableEq α] in
theorem apart_update {lists : κ → List α}
    (h : ∀ k k', k ≠ k' → ∀ x ∈ lists k, x ∉ lists k') {k : κ} {xs : List α}
    (hxs : ∀ x ∈ xs, ∀ k', k ≠ k' → x ∉ lists k') :
    ∀ k₁ k₂, k₁ ≠ k₂ → ∀ x ∈ Function.update lists k xs k₁, x ∉ Function.update lists k xs k₂ := by
  intro k₁ k₂ hne x hx
  by_cases h₁ : k₁ = k
  · subst h₁
    rw [Function.update_self] at hx
    rw [Function.update_of_ne hne.symm]
    exact hxs x hx k₂ hne
  · rw [Function.update_of_ne h₁] at hx
    by_cases h₂ : k₂ = k
    · subst h₂
      rw [Function.update_self]
      exact fun hmem => hxs x hmem k₁ hne.symm hx
    · rw [Function.update_of_ne h₂]
      exact h k₁ k₂ hne x hx

omit [DecidableEq α] in
theorem nodup_update {lists : κ → List α} (h : ∀ k, (lists k).Nodup) {k : κ} {xs : List α}
    (hxs : xs.Nodup) : ∀ k', (Function.update lists k xs k').Nodup := by
  intro k'
  by_cases hk : k' = k
  · rw [hk, Function.update_self]
    exact hxs
  · rw [Function.update_of_ne hk]
    exact h k'

omit [DecidableEq α] in
theorem mem_some_insert {lists : κ → List α} {k : κ} {x y : α} {zs : List α}
    (hzs : y ∈ zs ↔ y = x ∨ y ∈ lists k) :
    (∃ k', y ∈ Function.update lists k zs k') ↔ (∃ k', y ∈ lists k') ∨ y = x := by
  constructor
  · rintro ⟨k', hy⟩
    by_cases hk : k' = k
    · rw [hk, Function.update_self, hzs] at hy
      exact hy.symm.imp_left fun hy => ⟨k, hy⟩
    · rw [Function.update_of_ne hk] at hy
      exact Or.inl ⟨k', hy⟩
  · rintro (⟨k', hy⟩ | hy)
    · by_cases hk : k' = k
      · exact ⟨k, by rw [Function.update_self, hzs, ← hk]; exact Or.inr hy⟩
      · exact ⟨k', by rwa [Function.update_of_ne hk]⟩
    · exact ⟨k, by rw [Function.update_self, hzs]; exact Or.inl hy⟩

/-- Chains from several heads, with no node in two of them. -/
structure Chains (next : α → Option α) (heads : κ → Option α) (lists : κ → List α) : Prop where
  leads : ∀ k, Leads next (heads k) (lists k) none
  nodup : ∀ k, (lists k).Nodup
  apart : ∀ k k', k ≠ k' → ∀ x ∈ lists k, x ∉ lists k'

variable {next next' : α → Option α} {heads heads' : κ → Option α} {lists : κ → List α}

omit [DecidableEq κ] in
theorem Chains.update (h : Chains next heads lists) {x : α} (hx : ∀ k, x ∉ lists k)
    (r : Option α) : Chains (Function.update next x r) heads lists :=
  ⟨fun k => (h.leads k).update (hx k), h.nodup, h.apart⟩

/-- A new node behind the nodes `xs`. -/
theorem Chains.insert (h : Chains next heads lists) {k : κ} {xs ys : List α} {x : α}
    (hlist : lists k = xs ++ ys) (hx : ∀ k', x ∉ lists k')
    (hnew : match xs.getLast? with
      | none => next' = Function.update next x (heads k) ∧ heads' = Function.update heads k (some x)
      | some w => next' = Function.update (Function.update next x (next w)) w (some x) ∧
          heads' = heads) :
    Chains next' heads' (Function.update lists k (xs ++ x :: ys)) := by
  have hxk := hx k
  have hleads := h.leads k
  have hnodup := h.nodup k
  rw [hlist] at hxk hleads hnodup
  refine ⟨fun k' => ?_, nodup_update h.nodup ?_, apart_update h.apart ?_⟩
  · rcases eq_nil_or_concat xs with rfl | ⟨init, w, rfl⟩
    · obtain ⟨rfl, rfl⟩ := hnew
      by_cases hk : k' = k
      · subst hk
        rw [Function.update_self, Function.update_self]
        exact hleads.push hxk
      · rw [Function.update_of_ne hk, Function.update_of_ne hk]
        exact (h.leads k').update (hx k')
    · rw [concat_eq_append] at *
      rw [List.getLast?_concat] at hnew
      obtain ⟨rfl, rfl⟩ := hnew
      simp only [append_assoc, singleton_append] at *
      have hwx : w ≠ x := by
        rintro rfl
        simp at hxk
      obtain ⟨-, hcons, hdisj⟩ := nodup_append.mp hnodup
      have hwys := (nodup_cons.mp hcons).1
      have hwinit : w ∉ init := fun hmem => hdisj w hmem w (mem_cons_self ..) rfl
      by_cases hk : k' = k
      · subst hk
        rw [Function.update_self]
        have hnext := @Leads.update _ _ _ _ _ _ _ (next w) hleads hxk
        refine hnext.relink hwinit ⟨rfl, ?_⟩ ?_
        · rw [Function.update_self]
          refine (leads_append_cons.mp hleads).2.update fun hmem => hxk ?_
          exact mem_append_right _ (mem_cons_of_mem _ hmem)
        · simpa [hwx] using hwys
      · rw [Function.update_of_ne hk]
        refine ((h.leads k').update (hx k')).update ?_
        apply h.apart k k' (Ne.symm hk)
        rw [hlist]
        simp
  · refine nodup_middle.mpr (nodup_cons.mpr ⟨hxk, hnodup⟩)
  · intro y hy k' hk
    rcases mem_append.mp hy with hy | hy
    · exact h.apart k k' hk y (by rw [hlist]; exact mem_append_left _ hy)
    · rcases mem_cons.mp hy with rfl | hy
      · exact hx k'
      · exact h.apart k k' hk y (by rw [hlist]; exact mem_append_right _ hy)

/-- A node is taken out. -/
theorem Chains.remove (h : Chains next heads lists) {k : κ} {xs ys : List α} {x : α}
    (hlist : lists k = xs ++ x :: ys)
    (hnew : match xs.getLast? with
      | none => next' = next ∧ heads' = Function.update heads k (next x)
      | some w => next' = Function.update next w (next x) ∧ heads' = heads) :
    Chains next' heads' (Function.update lists k (xs ++ ys)) := by
  have hnodup := h.nodup k
  have hleads := h.leads k
  rw [hlist] at hnodup hleads
  have hsub : (xs ++ ys).Sublist (lists k) := by
    rw [hlist]
    exact List.Sublist.append_left (sublist_cons_self _ _) _
  refine ⟨fun k' => ?_, nodup_update h.nodup ((h.nodup k).sublist hsub), apart_update h.apart ?_⟩
  · have hremove := hleads.remove hnodup
    cases hw : xs.getLast? with
    | none =>
      rw [hw] at hnew hremove
      obtain ⟨rfl, rfl⟩ := hnew
      by_cases hk : k' = k
      · subst hk
        rw [Function.update_self, Function.update_self]
        exact hremove
      · rw [Function.update_of_ne hk, Function.update_of_ne hk]
        exact h.leads k'
    | some w =>
      rw [hw] at hnew hremove
      obtain ⟨rfl, rfl⟩ := hnew
      by_cases hk : k' = k
      · subst hk
        rw [Function.update_self]
        exact hremove
      · rw [Function.update_of_ne hk]
        refine (h.leads k').update (h.apart k k' (Ne.symm hk) w (hsub.subset ?_))
        exact mem_append_left _ (mem_of_getLast? hw)
  · exact fun y hy k' hk => h.apart k k' hk y (hsub.subset hy)

omit [DecidableEq α] in
theorem Chains.mem_some_remove (h : Chains next heads lists) {k : κ} {x y : α} {zs : List α}
    (hx : x ∈ lists k) (hzs : y ∈ zs ↔ y ∈ lists k ∧ y ≠ x) :
    (∃ k', y ∈ Function.update lists k zs k') ↔ (∃ k', y ∈ lists k') ∧ y ≠ x := by
  constructor
  · rintro ⟨k', hy⟩
    by_cases hk : k' = k
    · rw [hk, Function.update_self, hzs] at hy
      exact ⟨⟨k, hy.1⟩, hy.2⟩
    · rw [Function.update_of_ne hk] at hy
      refine ⟨⟨k', hy⟩, ?_⟩
      rintro rfl
      exact h.apart k' k hk y hy hx
  · rintro ⟨⟨k', hy⟩, hne⟩
    by_cases hk : k' = k
    · exact ⟨k, by rw [Function.update_self, hzs, ← hk]; exact ⟨hy, hne⟩⟩
    · exact ⟨k', by rwa [Function.update_of_ne hk]⟩

omit [DecidableEq α] [DecidableEq κ] in
/-- What two lists hold together is still held by the two. -/
theorem mem_some_transfer {lists lists' : κ → List α} (k k' : κ) {x : α}
    (htwo : x ∈ lists' k ∨ x ∈ lists' k' ↔ x ∈ lists k ∨ x ∈ lists k')
    (hother : ∀ o, o ≠ k → o ≠ k' → lists' o = lists o) :
    (∃ o, x ∈ lists' o) ↔ ∃ o, x ∈ lists o := by
  have hsplit : ∀ lists : κ → List α, (∃ o, x ∈ lists o) ↔
      (x ∈ lists k ∨ x ∈ lists k') ∨ ∃ o, o ≠ k ∧ o ≠ k' ∧ x ∈ lists o := by
    intro lists
    constructor
    · rintro ⟨o, hx⟩
      by_cases hk : o = k
      · exact .inl (.inl (hk ▸ hx))
      · by_cases hk' : o = k'
        · exact .inl (.inr (hk' ▸ hx))
        · exact .inr ⟨o, hk, hk', hx⟩
    · rintro ((hx | hx) | ⟨o, -, -, hx⟩)
      · exact ⟨k, hx⟩
      · exact ⟨k', hx⟩
      · exact ⟨o, hx⟩
  have hrest : (∃ o, o ≠ k ∧ o ≠ k' ∧ x ∈ lists' o) ↔ ∃ o, o ≠ k ∧ o ≠ k' ∧ x ∈ lists o := by
    constructor
    · rintro ⟨o, hk, hk', hx⟩
      exact ⟨o, hk, hk', hother o hk hk' ▸ hx⟩
    · rintro ⟨o, hk, hk', hx⟩
      exact ⟨o, hk, hk', (hother o hk hk').symm ▸ hx⟩
  rw [hsplit lists', hsplit lists, htwo, hrest]

omit [DecidableEq α] in
/-- Two of the chains are replaced by others of the same nodes. -/
theorem Chains.replace (h : Chains next heads lists) (k k' : κ) {lists' : κ → List α}
    (hk : Leads next' (heads' k) (lists' k) none) (hk' : Leads next' (heads' k') (lists' k') none)
    (hnodup : (lists' k).Nodup ∧ (lists' k').Nodup ∧ ∀ x ∈ lists' k, x ∉ lists' k')
    (htwo : ∀ x, x ∈ lists' k ∨ x ∈ lists' k' → x ∈ lists k ∨ x ∈ lists k')
    (hother : ∀ o, o ≠ k → o ≠ k' → heads' o = heads o ∧ lists' o = lists o ∧
      ∀ x ∈ lists o, next' x = next x) : Chains next' heads' lists' := by
  have hfar : ∀ o, o ≠ k → o ≠ k' → ∀ x, x ∈ lists' k ∨ x ∈ lists' k' → x ∉ lists o := by
    intro o hok hok' x hx hmem
    rcases htwo x hx with hx | hx
    · exact h.apart o k hok x hmem hx
    · exact h.apart o k' hok' x hmem hx
  refine ⟨fun o => ?_, fun o => ?_, fun o₁ o₂ hne x hx₁ hx₂ => ?_⟩
  · by_cases hok : o = k
    · exact hok ▸ hk
    · by_cases hok' : o = k'
      · exact hok' ▸ hk'
      · obtain ⟨hhead, hlist, hsame⟩ := hother o hok hok'
        rw [hhead, hlist]
        exact (h.leads o).congr hsame
  · by_cases hok : o = k
    · exact hok ▸ hnodup.1
    · by_cases hok' : o = k'
      · exact hok' ▸ hnodup.2.1
      · rw [(hother o hok hok').2.1]
        exact h.nodup o
  · -- which of the two lists are among the new ones
    by_cases h₁ : o₁ = k ∨ o₁ = k'
    · have hin₁ : x ∈ lists' k ∨ x ∈ lists' k' := by
        rcases h₁ with rfl | rfl
        · exact .inl hx₁
        · exact .inr hx₁
      by_cases h₂ : o₂ = k ∨ o₂ = k'
      · rcases h₁ with rfl | rfl
        · rcases h₂ with rfl | rfl
          · exact hne rfl
          · exact hnodup.2.2 x hx₁ hx₂
        · rcases h₂ with rfl | rfl
          · exact hnodup.2.2 x hx₂ hx₁
          · exact hne rfl
      · obtain ⟨hk₂, hk₂'⟩ := not_or.mp h₂
        rw [(hother o₂ hk₂ hk₂').2.1] at hx₂
        exact hfar o₂ hk₂ hk₂' x hin₁ hx₂
    · obtain ⟨hk₁, hk₁'⟩ := not_or.mp h₁
      rw [(hother o₁ hk₁ hk₁').2.1] at hx₁
      by_cases h₂ : o₂ = k ∨ o₂ = k'
      · refine hfar o₁ hk₁ hk₁' x ?_ hx₁
        rcases h₂ with rfl | rfl
        · exact .inl hx₂
        · exact .inr hx₂
      · obtain ⟨hk₂, hk₂'⟩ := not_or.mp h₂
        rw [(hother o₂ hk₂ hk₂').2.1] at hx₂
        exact h.apart o₁ o₂ hne x hx₁ hx₂

omit [DecidableEq α] [DecidableEq κ] in
/-- Single nodes outside of the chains become chains of one node. -/
theorem Chains.singles (h : Chains next heads lists) {f : κ → Option α}
    {lists' : κ → List α} (hnew : ∀ o x, f o = some x →
      heads' o = some x ∧ lists' o = [x] ∧ next x = none ∧ ∀ k, x ∉ lists k)
    (hold : ∀ o, f o = none → heads' o = heads o ∧ lists' o = lists o)
    (hinj : ∀ o o' x, f o = some x → f o' = some x → o = o') :
    Chains next heads' lists' := by
  refine ⟨fun o => ?_, fun o => ?_, fun o₁ o₂ hne x hx₁ hx₂ => ?_⟩
  · cases hsingle : f o with
    | none =>
      obtain ⟨hhead, hlist⟩ := hold o hsingle
      rw [hhead, hlist]
      exact h.leads o
    | some x =>
      obtain ⟨hhead, hlist, hnext, -⟩ := hnew o x hsingle
      rw [hhead, hlist]
      exact ⟨rfl, hnext⟩
  · cases hsingle : f o with
    | none =>
      rw [(hold o hsingle).2]
      exact h.nodup o
    | some x =>
      rw [(hnew o x hsingle).2.1]
      exact nodup_singleton x
  · cases h₁ : f o₁ with
    | none =>
      rw [(hold o₁ h₁).2] at hx₁
      cases h₂ : f o₂ with
      | none =>
        rw [(hold o₂ h₂).2] at hx₂
        exact h.apart o₁ o₂ hne x hx₁ hx₂
      | some y =>
        obtain ⟨-, hlist, -, hout⟩ := hnew o₂ y h₂
        rw [hlist, mem_singleton] at hx₂
        exact hout o₁ (hx₂ ▸ hx₁)
    | some y =>
      obtain ⟨-, hlist, -, hout⟩ := hnew o₁ y h₁
      rw [hlist, mem_singleton] at hx₁
      cases h₂ : f o₂ with
      | none =>
        rw [(hold o₂ h₂).2] at hx₂
        exact hout o₂ (hx₁ ▸ hx₂)
      | some z =>
        rw [(hnew o₂ z h₂).2.1, mem_singleton] at hx₂
        exact hne (hinj o₁ o₂ x (hx₁ ▸ h₁) (hx₂ ▸ h₂))

/-! ## Doubly linked lists -/

/-- The lists, from their heads by `next` and from their tails by `prev`. -/
structure DoublyLinked (next prev : α → Option α) (heads tails : κ → Option α)
    (lists : κ → List α) : Prop where
  forward : Chains next heads lists
  backward : Chains prev tails fun k => (lists k).reverse

variable {prev prev' : α → Option α} {tails tails' : κ → Option α}

omit [DecidableEq α] [DecidableEq κ] in
theorem DoublyLinked.pointers (h : DoublyLinked next prev heads tails lists) {k : κ}
    {xs ys : List α} {x : α} (hlist : lists k = xs ++ x :: ys) :
    next x = ys.head? ∧ prev x = xs.getLast? := by
  have hnext := h.forward.leads k
  have hprev := h.backward.leads k
  rw [hlist, leads_append_cons] at hnext
  rw [hlist, reverse_append, reverse_cons, append_assoc, singleton_append,
    leads_append_cons] at hprev
  constructor
  · exact hnext.2.head
  · rw [hprev.2.head, List.head?_reverse]

omit [DecidableEq κ] in
theorem DoublyLinked.update (h : DoublyLinked next prev heads tails lists) {x : α}
    (hx : ∀ k, x ∉ lists k) (p q : Option α) :
    DoublyLinked (Function.update next x p) (Function.update prev x q) heads tails lists :=
  ⟨h.forward.update hx p, h.backward.update (fun k hmem => hx k (mem_reverse.mp hmem)) q⟩

omit [DecidableEq α] in
theorem reverse_update (lists : κ → List α) (k : κ) (xs : List α) :
    (fun k' => (Function.update lists k xs k').reverse) =
      Function.update (fun k' => (lists k').reverse) k xs.reverse := by
  funext k'
  by_cases hk : k' = k
  · rw [hk, Function.update_self, Function.update_self]
  · rw [Function.update_of_ne hk, Function.update_of_ne hk]

theorem DoublyLinked.insert_empty (h : DoublyLinked next prev heads tails lists) {k : κ} {x : α}
    (hlist : lists k = []) (hx : ∀ k', x ∉ lists k') :
    DoublyLinked (Function.update next x none) (Function.update prev x none)
      (Function.update heads k (some x)) (Function.update tails k (some x))
      (Function.update lists k [x]) := by
  have hhead : heads k = none := by rw [(h.forward.leads k).head, hlist, List.head?_nil]
  have htail : tails k = none := by
    rw [(h.backward.leads k).head, hlist, reverse_nil, List.head?_nil]
  constructor
  · have hsplit : lists k = [] ++ [] := hlist
    exact h.forward.insert hsplit hx ⟨by rw [hhead], rfl⟩
  · rw [reverse_update]
    have hsplit : (lists k).reverse = [] ++ [] := by rw [hlist, reverse_nil, append_nil]
    exact h.backward.insert (k := k) hsplit (fun k' hmem => hx k' (mem_reverse.mp hmem))
      ⟨by rw [htail], rfl⟩

theorem DoublyLinked.remove (h : DoublyLinked next prev heads tails lists) {k : κ} {xs ys : List α}
    {x : α} (hlist : lists k = xs ++ x :: ys)
    (hnext : match prev x with
      | none => next' = next ∧ heads' = Function.update heads k (next x)
      | some w => next' = Function.update next w (next x) ∧ heads' = heads)
    (hprev : match next x with
      | none => prev' = prev ∧ tails' = Function.update tails k (prev x)
      | some w => prev' = Function.update prev w (prev x) ∧ tails' = tails) :
    DoublyLinked next' prev' heads' tails' (Function.update lists k (xs ++ ys)) := by
  obtain ⟨hnextx, hprevx⟩ := h.pointers hlist
  constructor
  · rw [hprevx] at hnext
    exact h.forward.remove hlist hnext
  · rw [hnextx, ← List.getLast?_reverse] at hprev
    have hreverse : (lists k).reverse = ys.reverse ++ x :: xs.reverse := by rw [hlist]; simp
    rw [reverse_update, reverse_append]
    exact h.backward.remove (k := k) hreverse hprev

end Chains

/-! ## Walking along a chain -/

/-- The loop from `p` on to a node that stops it: the node before it (at first `last`), and the node
or null. Without fuel the loop does not end. -/
def walk (next : α → Option α) (stop : α → Bool) :
    Nat → Option α → Option α → Option (Option α × Option α)
  | 0, _, _ => none
  | _ + 1, last, none => some (last, none)
  | fuel + 1, last, some x =>
    if stop x then some (last, some x) else walk next stop fuel (some x) (next x)

omit [DecidableEq α] in
theorem walk_eq {next : α → Option α} {stop : α → Bool} :
    ∀ {xs : List α} {fuel : Nat} {last p : Option α}, Leads next p xs none → xs.length < fuel →
      walk next stop fuel last p = some ((xs.takeWhile (fun x => !stop x)).getLast?.or last,
          (xs.dropWhile (fun x => !stop x)).head?)
  | [], 0, _, _, _, hfuel => absurd hfuel (Nat.not_lt_zero _)
  | [], fuel + 1, last, p, h, _ => by
    rw [show p = none from h]
    rfl
  | x :: xs, 0, _, _, _, hfuel => absurd hfuel (Nat.not_lt_zero _)
  | x :: xs, fuel + 1, last, p, h, hfuel => by
    rw [h.1, walk]
    by_cases hstop : stop x = true
    · simp [hstop]
    · rw [if_neg hstop, walk_eq h.2 (Nat.lt_of_succ_lt_succ hfuel)]
      simp only [Bool.not_eq_true] at hstop
      simp only [hstop, Bool.not_false, takeWhile_cons_of_pos, dropWhile_cons_of_pos,
        List.getLast?_cons, Option.some_or]
      cases (xs.takeWhile fun x => !stop x).getLast? <;> rfl

omit [DecidableEq α] in
/-- If the loop ends, it ends there whatever fuel it had. -/
theorem walk_some {next : α → Option α} {stop : α → Bool} {xs : List α} {fuel : Nat}
    {last p : Option α} {result : Option α × Option α} (h : Leads next p xs none)
    (hwalk : walk next stop fuel last p = some result) :
    result = ((xs.takeWhile (fun x => !stop x)).getLast?.or last,
      (xs.dropWhile (fun x => !stop x)).head?) := by
  induction fuel generalizing xs last p with
  | zero => cases hwalk
  | succ fuel ih =>
    cases xs with
    | nil =>
      rw [show p = none from h] at hwalk
      exact (Option.some.inj hwalk).symm
    | cons x xs =>
      rw [h.1, walk] at hwalk
      by_cases hstop : stop x = true
      · rw [if_pos hstop] at hwalk
        simpa [hstop] using (Option.some.inj hwalk).symm
      · rw [if_neg hstop] at hwalk
        rw [ih h.2 hwalk]
        simp only [Bool.not_eq_true] at hstop
        simp only [hstop, Bool.not_false, takeWhile_cons_of_pos,
          dropWhile_cons_of_pos, List.getLast?_cons, Option.some_or]
        cases (xs.takeWhile fun x => !stop x).getLast? <;> rfl

theorem walk_find {next : α → Option α} {pre post : List α} {x : α} {fuel : Nat} {p : Option α}
    {result : Option α × Option α} (h : Leads next p (pre ++ x :: post) none) (hx : x ∉ pre)
    (hwalk : walk next (fun y => y = x) fuel none p = some result) :
    result = (pre.getLast?, some x) := by
  have hpre : ∀ y ∈ pre, (!decide (y = x)) = true := by
    rintro y hy
    simp only [Bool.not_eq_true', decide_eq_false_iff_not]
    rintro rfl
    exact hx hy
  rw [walk_some h hwalk, takeWhile_append_of_pos hpre, dropWhile_append_of_pos hpre]
  simp

theorem walk_find_none {next : α → Option α} {xs : List α} {x : α} {fuel : Nat} {p : Option α}
    {result : Option α × Option α} (h : Leads next p xs none) (hx : x ∉ xs)
    (hwalk : walk next (fun y => y = x) fuel none p = some result) :
    result = (xs.getLast?, none) := by
  have hxs : ∀ y ∈ xs, (!decide (y = x)) = true := by
    rintro y hy
    simp only [Bool.not_eq_true', decide_eq_false_iff_not]
    rintro rfl
    exact hx hy
  have htake := @takeWhile_append_of_pos _ _ xs [] hxs
  have hdrop := @dropWhile_append_of_pos _ _ xs [] hxs
  rw [append_nil] at htake hdrop
  rw [walk_some h hwalk, htake, hdrop]
  simp

/-- A new node where the loop stops. -/
theorem Chains.insert_walk {κ : Type} [DecidableEq κ] {next next' : α → Option α}
    {heads heads' : κ → Option α} {lists : κ → List α} (h : Chains next heads lists) {k : κ}
    {x : α} {stop : α → Bool} {fuel : Nat} {last rest : Option α}
    (hwalk : walk next stop fuel none (heads k) = some (last, rest)) (hx : ∀ k', x ∉ lists k')
    (hnew : match last with
      | none => next' = Function.update next x rest ∧ heads' = Function.update heads k (some x)
      | some w => next' = Function.update (Function.update next x (next w)) w (some x) ∧
          heads' = heads) :
    Chains next' heads' (Function.update lists k
      ((lists k).takeWhile (fun y => !stop y) ++ x :: (lists k).dropWhile fun y => !stop y)) := by
  have hfound := walk_some (h.leads k) hwalk
  rw [Prod.mk.injEq, Option.or_none] at hfound
  have hsplit := (@takeWhile_append_dropWhile _ (fun y => !stop y) (lists k)).symm
  apply h.insert hsplit hx
  rw [← hfound.1]
  cases last with
  | none =>
    have hhead : heads k = rest := by
      have hnil := List.getLast?_eq_none_iff.mp hfound.1.symm
      rw [hnil, nil_append] at hsplit
      rw [(h.leads k).head, hfound.2, ← hsplit]
    rw [hhead]
    exact hnew
  | some w => exact hnew

end Chain

import OpenBeOS.BFS.SplitOther

/-! # The old node of a split

The second loop rewrites the key lengths of the entries that stay, and then the three arrays are
moved inside the node. The arrays of the two layouts overlap: `MoveSafe` says when nothing is
overwritten that is still needed.
-/

namespace BFS

open Bytes List

/-! ## The loop over the rest -/

/-- The entries `from, …, to - 1` of the key lengths are rewritten, and nothing else. -/
structure Rewritten (node m : Buffer) (kl start stop : Nat) (f : Nat → Nat) : Prop where
  lens : ∀ i, start ≤ i → i < stop → load16 m (kl + 2 * i) = f i
  frame : ∀ x, x < kl + 2 * start ∨ kl + 2 * stop ≤ x → m x = node x

theorem Rewritten.nil (node : Buffer) (kl : Nat) {start stop : Nat} (h : stop ≤ start)
    (f : Nat → Nat) : Rewritten node node kl start stop f :=
  ⟨fun i h₁ h₂ => by omega, fun _ _ => rfl⟩

theorem Rewritten.cons {node m r : Buffer} {kl start stop : Nat} {f : Nat → Nat}
    (hlt : start < stop) (hframe : ∀ x, x < kl + 2 * start ∨ kl + 2 * start + 2 ≤ x → m x = node x)
    (hlen : load16 m (kl + 2 * start) = f start) (h : Rewritten m r kl (start + 1) stop f) :
    Rewritten node r kl start stop f := by
  refine ⟨fun i h₁ h₂ => ?_, fun x hx => ?_⟩
  · by_cases hi : i = start
    · subst hi
      rw [← hlen]
      exact load16_congr fun j hj => h.frame _ (by omega)
    · exact h.lens i (by omega) h₂
  · rw [h.frame x (by omega), hframe x (by omega)]

section RestLoop

variable {kl n L total skip : Nat} {ki : Int} {c : Nat → Nat}

/-- A round that moves one key length to its new value. -/
theorem restStep_shift {s : Rest} (hki : ¬((s.inn : Int) = ki ∧ s.bytes = 0)) (hn : s.inn < n)
    (hlen : load16 s.node (kl + 2 * s.inn) = c (s.inn + 1)) (htotal : total ≤ c (s.inn + 1))
    (hsmall : c (s.inn + 1) + s.bytes < 2 ^ 16) :
    ∃ m, restStep kl n L total skip ki s = { s with
          node := m
          bytesAfter := if s.bytes ≠ 0 then (c (s.inn + 1) : Int) - total - s.bytesBefore
            else s.bytesAfter
          inn := s.inn + 1
          out := s.out + 1 } ∧
      load16 m (kl + 2 * s.inn) = c (s.inn + 1) - total + s.bytes ∧
      ∀ x, x < kl + 2 * s.inn ∨ kl + 2 * s.inn + 2 ≤ x → m x = s.node x := by
  have hfirst : load16 (store16 s.node (kl + 2 * s.inn)
      (load16 s.node (kl + 2 * s.inn) + 2 ^ 16 - total)) (kl + 2 * s.inn) =
      c (s.inn + 1) - total := by
    rw [load16_store16_mod, hlen]
    omega
  unfold restStep
  rw [if_neg hki, if_pos hn]
  simp only
  by_cases hbytes : s.bytes = 0
  · rw [if_neg (not_not.2 hbytes)]
    refine ⟨store16 s.node (kl + 2 * s.inn) (load16 s.node (kl + 2 * s.inn) + 2 ^ 16 - total), ?_,
      ?_, fun x hx => store16_outside hx⟩
    · rw [if_neg (not_not.2 hbytes)]
    · rw [hfirst, hbytes]
      rfl
  · rw [if_pos hbytes]
    have hsecond := load16_store16_same (store16 s.node (kl + 2 * s.inn)
      (load16 s.node (kl + 2 * s.inn) + 2 ^ 16 - total)) (a := kl + 2 * s.inn)
      (v := c (s.inn + 1) - total + s.bytes) (by omega)
    rw [hfirst]
    refine ⟨_, ?_, hsecond, fun x hx => ?_⟩
    · rw [hsecond, if_pos hbytes]
      congr 1
      omega
    · rw [store16_outside hx, store16_outside hx]

/-- The rounds behind the new key, or when it is not among the rest. -/
theorem restLoop_tail (hc : ∀ i j, i ≤ j → c i ≤ c j) (htotal : total = c skip) (fuel : Nat) :
    ∀ s : Rest, s.inn ≤ n → skip ≤ s.inn → (s.bytes ≠ 0 ∨ ki < s.inn) → ki ≤ s.inn →
      n + 1 - s.inn ≤ fuel → c n + s.bytes < 2 ^ 16 →
      (∀ i, s.inn ≤ i → i < n → load16 s.node (kl + 2 * i) = c (i + 1)) →
      ∃ m, restLoop kl n L total skip ki fuel s = { s with
            node := m
            bytesAfter := if s.bytes ≠ 0 ∧ s.inn < n then (c n : Int) - total - s.bytesBefore
              else s.bytesAfter
            inn := n + 1
            out := s.out + (n + 1 - s.inn) } ∧
        Rewritten s.node m kl s.inn n fun i => c (i + 1) - total + s.bytes := by
  induction fuel with
  | zero =>
    intro s hn _ _ _ hfuel
    omega
  | succ fuel ih =>
    intro s hn hskip hdone hki hfuel hsmall hlens
    have hnot : ¬((s.inn : Int) = ki ∧ s.bytes = 0) := by omega
    rw [restLoop, if_pos (by omega)]
    by_cases hlt : s.inn < n
    · have hmono := hc (s.inn + 1) n (by omega)
      have hshift := hc skip (s.inn + 1) (by omega)
      obtain ⟨m, hstep, hlen, hframe⟩ := @restStep_shift _ _ L total skip _ _ _
        hnot hlt (hlens _ (Nat.le_refl _) hlt) (by omega) (by omega)
      simp only [hstep]
      rw [if_neg (by omega)]
      obtain ⟨r, hr, hrewritten⟩ := ih { s with
        node := m
        bytesAfter := if s.bytes ≠ 0 then (c (s.inn + 1) : Int) - total - s.bytesBefore
          else s.bytesAfter
        inn := s.inn + 1
        out := s.out + 1 } (by simp only; omega) (by simp only; omega) (by simp only; omega)
        (by simp only; omega) (by simp only; omega) hsmall fun i hi hin => by
          simp only at hi ⊢
          rw [← hlens i (by omega) hin]
          exact load16_congr fun j hj => hframe _ (by omega)
      simp only at hr hrewritten
      refine ⟨r, ?_, hrewritten.cons hlt hframe hlen⟩
      rw [hr, show s.out + 1 + (n + 1 - (s.inn + 1)) = s.out + (n + 1 - s.inn) by omega]
      congr 1
      by_cases hbytes : s.bytes = 0
      · simp [hbytes]
      · by_cases hlast : s.inn + 1 < n
        · rw [if_pos ⟨hbytes, hlast⟩, if_pos ⟨hbytes, hlt⟩]
        · rw [if_neg fun h => hlast h.2, if_pos hbytes, if_pos ⟨hbytes, hlt⟩,
            show s.inn + 1 = n by omega]
    · -- the round that only counts
      have hinn : s.inn = n := by omega
      have hstep : restStep kl n L total skip ki s =
          { s with inn := s.inn + 1, out := s.out + 1 } := by
        unfold restStep
        rw [if_neg hnot, if_neg hlt]
      simp only [hstep]
      rw [if_pos (by omega)]
      refine ⟨s.node, ?_, Rewritten.nil _ _ (by omega) _⟩
      rw [if_neg fun h => hlt h.2, hinn, Nat.add_sub_cancel_left]

/-- The rounds up to the new key. -/
theorem restLoop_head (hc : ∀ i j, i ≤ j → c i ≤ c j) (htotal : total = c skip) {k : Nat}
    (hk : ki = k) (hkn : k ≤ n) (hsmall : c n < 2 ^ 16) (d : Nat) :
    ∀ (fuel : Nat) (s : Rest), s.inn + d = k → skip ≤ s.inn → s.bytes = 0 → d ≤ fuel →
      (∀ i, s.inn ≤ i → i < k → load16 s.node (kl + 2 * i) = c (i + 1)) →
      ∃ m, restLoop kl n L total skip ki fuel s = restLoop kl n L total skip ki (fuel - d)
            { s with node := m, inn := k, out := s.out + d } ∧
        Rewritten s.node m kl s.inn k fun i => c (i + 1) - total := by
  induction d with
  | zero =>
    intro fuel s hinn _ _ _ _
    rw [Nat.add_zero] at hinn
    refine ⟨s.node, ?_, Rewritten.nil _ _ (by omega) _⟩
    rw [← hinn, Nat.sub_zero, Nat.add_zero]
  | succ d ih =>
    intro fuel s hinn hskip hbytes hfuel hlens
    obtain ⟨fuel, rfl⟩ : ∃ f, fuel = f + 1 := ⟨fuel - 1, by omega⟩
    have hmono := hc (s.inn + 1) n (by omega)
    have hshift := hc skip (s.inn + 1) (by omega)
    obtain ⟨m, hstep, hlen, hframe⟩ := @restStep_shift _ n L total skip ki _ _
      (show ¬((s.inn : Int) = ki ∧ s.bytes = 0) by omega) (by omega)
      (hlens _ (Nat.le_refl _) (by omega)) (by omega) (by omega)
    rw [restLoop, if_pos (by omega)]
    simp only [hstep]
    rw [if_neg (by omega), if_neg (not_not.2 hbytes)]
    obtain ⟨r, hr, hrewritten⟩ := ih fuel
      { s with node := m, inn := s.inn + 1, out := s.out + 1 } (by simp only; omega)
      (by simp only; omega) hbytes (by omega) fun i hi hik => by
        simp only at hi ⊢
        rw [← hlens i (by omega) hik]
        exact load16_congr fun j hj => hframe _ (by omega)
    simp only at hr hrewritten
    refine ⟨r, ?_, hrewritten.cons (by omega) hframe (by rw [hlen, hbytes, Nat.add_zero])⟩
    rw [hr, show fuel + 1 - (d + 1) = fuel - d by omega,
      show s.out + 1 + d = s.out + (d + 1) by omega]

end RestLoop

/-! ## Moving the rest -/

/-- The second move goes behind the first with a gap of `g` bytes, and may move more than is
needed. -/
theorem movePair_spec {m r : Buffer} {a b D S g x x' y z : Nat} (hx : a = 0 → x = 0)
    (hx' : a ≠ 0 → x' = x) (hz : b = 0 → z = 0) (hzy : b ≠ 0 → z ≤ y)
    (hapart : ∀ i, i < z → S + x + i < D ∨ D + x ≤ S + x + i)
    (hr : r = movePair m a b D S x' (D + x + g) (S + x) y) :
    (∀ i, i < x → r (D + i) = m (S + i)) ∧ (∀ i, i < z → r (D + x + g + i) = m (S + x + i)) ∧
      ∀ i, (i < D ∨ D + x ≤ i) → (b = 0 ∨ i < D + x + g ∨ D + x + g + y ≤ i) → r i = m i := by
  unfold movePair at hr
  simp only at hr
  have hfirst : (∀ i, i < x → (if a ≠ 0 then memmove m D S x' else m) (D + i) = m (S + i)) ∧
      ∀ i, (i < D ∨ D + x ≤ i) → (if a ≠ 0 then memmove m D S x' else m) i = m i := by
    by_cases ha : a = 0
    · rw [if_neg (not_not.2 ha)]
      exact ⟨fun i hi => by have := hx ha; omega, fun i _ => rfl⟩
    · rw [if_pos ha, hx' ha]
      refine ⟨fun i hi => ?_, fun i hi => memmove_outside hi⟩
      rw [memmove_inside (by omega) (by omega), Nat.add_sub_cancel_left]
  obtain ⟨hin, hout⟩ := hfirst
  by_cases hb : b = 0
  · rw [if_neg (not_not.2 hb)] at hr
    subst hr
    exact ⟨hin, fun i hi => by have := hz hb; omega, fun i hi _ => hout i hi⟩
  · rw [if_pos hb] at hr
    subst hr
    refine ⟨fun i hi => ?_, fun i hi => ?_, fun i hi hi' => ?_⟩
    · rw [memmove_outside (by omega), hin i hi]
    · rw [memmove_inside (by omega) (by omega), show D + x + g + i - (D + x + g) = i by omega,
        hout _ (hapart i hi)]
    · rw [memmove_outside (by omega), hout i hi]

/-- Two ranges of bytes that do not meet. -/
def Apart (a m b n : Nat) : Prop := m = 0 ∨ n = 0 ∨ a + m ≤ b ∨ b + n ≤ a

theorem Apart.outside {a m b n i : Nat} (h : Apart a m b n) (hi : b ≤ i) (hi' : i < b + n) :
    i < a ∨ a + m ≤ i := by
  unfold Apart at h
  omega

/-- No move overwrites what is still to be moved. `skip` slots in front are dropped; `j` entries
with `a` key bytes, the new key of length `L` and `p` entries with `b` key bytes stay. The arrays
were at `KL` and `VS`, and are now at `kl` and `vs`. -/
structure MoveSafe (KL VS kl vs skip j p a L b : Nat) : Prop where
  keys_lengths : Apart (28 + a + L) b (KL + 2 * skip) (2 * (j + p))
  keys_values : Apart (28 + a + L) b (VS + 8 * skip) (8 * (j + p))
  lengths : Apart kl (2 * j) (KL + 2 * skip + 2 * j) (2 * p)
  lengths_values : Apart kl (2 * j) (VS + 8 * skip) (8 * (j + p))
  lengths_values' : p ≠ 0 → Apart (kl + 2 * j + 2) (2 * (p + 1)) (VS + 8 * skip) (8 * (j + p))
  values : Apart vs (8 * j) (VS + 8 * skip + 8 * j) (8 * p)

/-- The moves inside this node are safe. -/
def RestSafe (node : Buffer) (skip j p a L b : Nat) : Prop :=
  MoveSafe (keyLengths node) (values node) (round_up (28 + (L + a + b)))
    (round_up (28 + (L + a + b)) + 2 * (j + 1 + p)) skip j p a L b

/-- The contents after the moves, at their new places. -/
structure Moved (m r : Buffer) (KL VS kl vs skip t j a L p b : Nat) : Prop where
  head : ∀ i, i < 28 → r i = m i
  key₁ : ∀ i, i < a → r (28 + i) = m (28 + t + i)
  key₂ : ∀ i, i < b → r (28 + a + L + i) = m (28 + t + a + i)
  len₁ : ∀ i, i < 2 * j → r (kl + i) = m (KL + 2 * skip + i)
  len₂ : ∀ i, i < 2 * p → r (kl + 2 * j + 2 + i) = m (KL + 2 * skip + 2 * j + i)
  val₁ : ∀ i, i < 8 * j → r (vs + i) = m (VS + 8 * skip + i)
  val₂ : ∀ i, i < 8 * p → r (vs + 8 * j + 8 + i) = m (VS + 8 * skip + 8 * j + i)

theorem moved {m : Buffer} {KL VS kl vs skip j a L p b n : Nat} (t kc inn : Nat)
    (h : MoveSafe KL VS kl vs skip j p a L b) (hn : n = skip + j + p)
    (hVS : VS = KL + 2 * n) (hvs : vs = kl + 2 * (j + 1 + p)) (hKL : 28 + t + a + b ≤ KL)
    (hkl : 28 + a + L + b ≤ kl) (hj : a = 0 → j = 0) (hp : b = 0 → p = 0)
    (hp' : b ≠ 0 → p ≠ 0) (hkc : a ≠ 0 → kc = j) (hinn : b ≠ 0 → inn = p + 1) :
    Moved m (moveArrays m L a b kl vs KL VS t skip kc inn j) KL VS kl vs skip t j a L p b := by
  generalize hr : moveArrays m L a b kl vs KL VS t skip kc inn j = r
  simp only [moveArrays, keys, sizeofNode] at hr
  generalize h₂ : movePair m a b 28 (28 + t) a (28 + a + L) (28 + t + a) b = m₂ at hr
  generalize h₄ : movePair m₂ a b kl (KL + 2 * skip) (2 * kc) (kl + 2 * j + 2)
    (KL + 2 * skip + 2 * j) (2 * inn) = m₄ at hr
  obtain ⟨hkey₁, hkey₂, hkey₃⟩ := movePair_spec (z := b) (fun ha => ha) (fun _ => rfl)
    (fun hb => hb) (fun _ => Nat.le_refl b) (by omega) h₂.symm
  obtain ⟨hlen₁, hlen₂, hlen₃⟩ := movePair_spec (x := 2 * j) (z := 2 * p) (by omega)
    (fun ha => by rw [hkc ha]) (by omega) (fun hb => by have := hinn hb; omega)
    (fun i hi => h.lengths.outside (by omega) (by omega)) h₄.symm
  obtain ⟨hval₁, hval₂, hval₃⟩ := movePair_spec (x := 8 * j) (z := 8 * p) (by omega)
    (fun ha => by rw [hkc ha]) (by omega) (fun hb => by have := hinn hb; omega)
    (fun i hi => h.values.outside (by omega) (by omega)) hr.symm
  -- the arrays are still there when they are moved
  have hkeys : ∀ i, KL ≤ i → (i < 28 + a + L ∨ 28 + a + L + b ≤ i) → m₂ i = m i :=
    fun i hi hi' => hkey₃ i (.inr (by omega)) (.inr hi')
  have hlens : ∀ i, KL + 2 * skip ≤ i → i < KL + 2 * skip + 2 * (j + p) → m₂ i = m i :=
    fun i hi hi' => hkeys i (by omega) (h.keys_lengths.outside hi hi')
  have hvalues : ∀ i, VS + 8 * skip ≤ i → i < VS + 8 * skip + 8 * (j + p) → m₄ i = m i := by
    intro i hi hi'
    rw [hlen₃ i (h.lengths_values.outside hi hi') ?_,
      hkeys i (by omega) (h.keys_values.outside hi hi')]
    by_cases hb : b = 0
    · exact .inl hb
    · rw [hinn hb]
      exact .inr ((h.lengths_values' (hp' hb)).outside hi hi')
  refine ⟨fun i hi => ?_, fun i hi => ?_, fun i hi => ?_, fun i hi => ?_, fun i hi => ?_,
    fun i hi => ?_, fun i hi => ?_⟩
  · rw [hval₃ i (.inl (by omega)) (.inr (.inl (by omega))),
      hlen₃ i (.inl (by omega)) (.inr (.inl (by omega))),
      hkey₃ i (.inl hi) (.inr (.inl (by omega)))]
  · rw [hval₃ _ (.inl (by omega)) (.inr (.inl (by omega))),
      hlen₃ _ (.inl (by omega)) (.inr (.inl (by omega))), hkey₁ i hi]
  · rw [hval₃ _ (.inl (by omega)) (.inr (.inl (by omega))),
      hlen₃ _ (.inl (by omega)) (.inr (.inl (by omega))), hkey₂ i hi]
  · rw [hval₃ _ (.inl (by omega)) (.inr (.inl (by omega))), hlen₁ i hi,
      hlens _ (by omega) (by omega)]
  · rw [hval₃ _ (.inl (by omega)) (.inr (.inl (by omega))), hlen₂ i hi,
      hlens _ (by omega) (by omega)]
  · rw [hval₁ i hi, hvalues _ (by omega) (by omega)]
  · rw [hval₂ i hi, hvalues _ (by omega) (by omega)]

/-- The moved contents and the new key, seen from the node before its key lengths were
rewritten. -/
theorem Moved.copiedParts {node m header m' r key : Buffer}
    {KL VS kl vs skip t j a L p b n : Nat} {v : Int} {c : Nat → Nat}
    (h : Moved header m' KL VS kl vs skip t j a L p b) (hn : n = skip + j + p)
    (hVS : VS = KL + 2 * n) (hvs : vs = kl + 2 * (j + 1 + p)) (hKL : 28 + t + a + b ≤ KL)
    (hkl : 28 + a + L + b ≤ kl) (hlen : a + L < 2 ^ 16) (hv : IsInt64 v)
    (hKLnode : keyLengths node = KL) (hVSnode : values node = VS)
    (hlens : ∀ i, skip ≤ i → i < n → load16 node (KL + 2 * i) = c (i + 1) ∧ t ≤ c (i + 1))
    (hm : Rewritten node m KL skip n fun i =>
      if i < skip + j then c (i + 1) - t else c (i + 1) - t + L)
    (hheader : ∀ i, 28 ≤ i → header i = m i) (hr : r = copyNew m' kl vs j a key L v) :
    CopiedParts node r header key kl vs skip t j a L p b v := by
  obtain ⟨hframe, hnew, hnewlen, hnewval⟩ := copyNew_spec (by omega) (by omega) hlen hv hr
  have hkeys : ∀ i, i < a + b → header (28 + t + i) = node (28 + t + i) := by
    intro i hi
    rw [hheader _ (by omega), hm.frame _ (.inl (by omega))]
  have hvalues : ∀ i, VS ≤ i → header i = node i := by
    intro i hi
    rw [hheader i (by omega), hm.frame i (.inr (by omega))]
  have hbefore : ∀ i, i < j → load16 r (kl + 2 * i) = c (skip + i + 1) - t := by
    intro i hi
    have hlen := hm.lens (skip + i) (by omega) (by omega)
    rw [if_pos (by omega)] at hlen
    rw [← hlen]
    refine load16_congr fun k hk => ?_
    rw [hframe _ (.inr (by omega)) (.inl (by omega)) (.inl (by omega)),
      show kl + 2 * i + k = kl + (2 * i + k) by omega, h.len₁ _ (by omega), hheader _ (by omega)]
    exact congrArg _ (by omega)
  have hafter : ∀ i, i < p → load16 r (kl + 2 * (j + 1 + i)) = c (skip + j + i + 1) - t + L := by
    intro i hi
    have hlen := hm.lens (skip + j + i) (by omega) (by omega)
    rw [if_neg (by omega)] at hlen
    rw [← hlen]
    refine load16_congr fun k hk => ?_
    rw [hframe _ (.inr (by omega)) (.inr (by omega)) (.inl (by omega)),
      show kl + 2 * (j + 1 + i) + k = kl + 2 * j + 2 + (2 * i + k) by omega,
      h.len₂ _ (by omega), hheader _ (by omega)]
    exact congrArg _ (by omega)
  refine ⟨fun i hi => ?_, fun i hi => ?_, fun i hi => ?_, fun i hi => ?_, hnew, hnewlen, hnewval,
    fun i hi => ?_, fun i hi => ?_, fun i hi => ?_⟩
  · rw [hframe i (.inl (by omega)) (.inl (by omega)) (.inl (by omega)), h.head i hi]
  · rw [hframe _ (.inl (by omega)) (.inl (by omega)) (.inl (by omega)), h.key₁ i hi,
      hkeys _ (by omega)]
  · obtain ⟨hold, hle⟩ := hlens (skip + i) (by omega) (by omega)
    rw [hbefore i hi, hKLnode, hold, Nat.sub_add_cancel hle]
  · rw [hVSnode]
    refine load64_congr fun k hk => ?_
    rw [hframe _ (.inr (by omega)) (.inr (by omega)) (.inl (by omega)),
      show vs + 8 * i + k = vs + (8 * i + k) by omega, h.val₁ _ (by omega), hvalues _ (by omega)]
    exact congrArg _ (by omega)
  · rw [hframe _ (.inr (by omega)) (.inl (by omega)) (.inl (by omega)), h.key₂ i hi,
      Nat.add_assoc (28 + t), hkeys _ (by omega)]
  · obtain ⟨hold, hle⟩ := hlens (skip + j + i) (by omega) (by omega)
    rw [hafter i hi, hKLnode, hold]
    omega
  · rw [hVSnode]
    refine load64_congr fun k hk => ?_
    rw [hframe _ (.inr (by omega)) (.inr (by omega)) (.inr (by omega)),
      show vs + 8 * (j + 1 + i) + k = vs + 8 * j + 8 + (8 * i + k) by omega,
      h.val₂ _ (by omega), hvalues _ (by omega)]
    exact congrArg _ (by omega)

/-! ## The old node -/

/-- The links in the header of the old node. -/
structure RestLinks (node r : Buffer) (otherOffset : Int) : Prop where
  left : left_link r = otherOffset
  right : right_link r = right_link node
  overflow : overflow_link r = overflow_link node

theorem restHeader_spec {node m r : Buffer} {otherOffset : Int} {t n : Nat} (ht : t < 2 ^ 16)
    (hn : n < 2 ^ 16) (ho : IsInt64 otherOffset) (hm : ∀ i, i < 28 → m i = node i)
    (hr : ∀ i, i < 28 → r i = restHeader m otherOffset t n i) :
    all_key_count r = n ∧ all_key_length r = t ∧ RestLinks node r otherOffset := by
  obtain ⟨hcount, hlength, hlinks⟩ := counts_spec ht hn hr
  refine ⟨hcount, hlength, ?_, ?_, ?_⟩
  · exact (hlinks _ (by omega)).trans (load64_store64_same _ ho)
  · rw [right_link, hlinks _ (by omega), setLeftLink, load64_store64_disjoint (by omega)]
    exact load64_congr fun i hi => hm _ (by omega)
  · rw [overflow_link, hlinks _ (by omega), setLeftLink, load64_store64_disjoint (by omega)]
    exact load64_congr fun i hi => hm _ (by omega)

theorem restHeader_behind {node : Buffer} {otherOffset : Int} {t n i : Nat} (hi : 28 ≤ i) :
    restHeader node otherOffset t n i = node i := by
  rw [restHeader, setAllKeyCount, setAllKeyLength, setLeftLink, store16_outside (by omega),
    store16_outside (by omega), store64_outside (by omega)]

theorem length_of_keysLength {es : List Entry} (h : keysLength es ≠ 0) : es.length ≠ 0 := by
  rintro hnil
  rw [eq_nil_of_length_eq_zero hnil] at h
  exact h rfl

/-- **The old node with the new key.** -/
theorem moveRest_right {node m key r : Buffer} {S A B : List Entry} {otherOffset v : Int}
    {L : Nat} (h : Packed node (S ++ (A ++ B))) (hf : Fits (S ++ (A ++ B))) (hS : S ≠ [])
    (hL : 0 < L) (hL' : L ≤ BPLUSTREE_MAX_KEY_LENGTH) (hv : IsInt64 v) (ho : IsInt64 otherOffset)
    (hsafe : RestSafe node S.length A.length B.length (keysLength A) L (keysLength B))
    (hm : Rewritten node m (keyLengths node) S.length (S.length + A.length + B.length) fun i =>
      if i < S.length + A.length then
        keysLength ((S ++ (A ++ B)).take (i + 1)) - keysLength S
      else keysLength ((S ++ (A ++ B)).take (i + 1)) - keysLength S + L)
    (hr : r = moveRest ⟨S.length + A.length + B.length + 1, A.length + B.length + 2, L,
        (keysLength A : Nat), (keysLength B : Nat), m⟩ (keyLengths node) (values node)
      (keysLength S) S.length (S.length + A.length : Nat) otherOffset key v) :
    Packed r (A ++ (takeKey key L, v) :: B) ∧ RestLinks node r otherOffset := by
  have hlen := hf.keysLength_le
  have hposA := length_le_keysLength fun e he => hf.key_pos e
    (mem_append_right S (mem_append_left B he))
  have hposB := length_le_keysLength fun e he => hf.key_pos e
    (mem_append_right S (mem_append_right A he))
  have hposS : S.length ≠ 0 := by simpa using hS
  have hKL := h.keyLengths_eq
  have hVS := h.values_eq
  rw [← hKL] at hVS
  simp only [keysLength_append, length_append, BPLUSTREE_MAX_KEY_LENGTH] at hlen hL' hKL hVS
  have hruKL := le_round_up (28 + (keysLength S + (keysLength A + keysLength B)))
  have hrukl := le_round_up (28 + (L + keysLength A + keysLength B))
  unfold moveRest at hr
  simp only [Int.toNat_natCast] at hr
  rw [show ((S.length + A.length : Nat) : Int) - (S.length : Nat) = (A.length : Nat) by omega] at hr
  simp only [Int.toNat_natCast] at hr
  rw [if_pos (show L ≠ 0 by omega),
    show A.length + B.length + 2 - 1 = A.length + B.length + 1 by omega] at hr
  have hm28 : ∀ i, i < 28 → m i = node i := fun i hi => hm.frame i (.inl (by omega))
  obtain ⟨hcount, hlength, -⟩ := @restHeader_spec node m _ _ _ _
    (show L + keysLength A + keysLength B < 2 ^ 16 by omega)
    (show A.length + B.length + 1 < 2 ^ 16 by omega) ho hm28 fun i _ => rfl
  obtain ⟨hkl, hvs⟩ := layout_of_header hcount hlength
  rw [hkl, hvs] at hr
  have hlens : ∀ i, S.length ≤ i → i < S.length + A.length + B.length →
      load16 node (keyLengths node + 2 * i) = keysLength ((S ++ (A ++ B)).take (i + 1)) ∧
        keysLength S ≤ keysLength ((S ++ (A ++ B)).take (i + 1)) := by
    intro i hi hi'
    refine ⟨h.keyEnd_succ (by simp only [length_append]; omega), ?_⟩
    rw [take_append, take_of_length_le (by omega), keysLength_append]
    omega
  have hvs' : round_up (28 + (L + keysLength A + keysLength B)) + (A.length + B.length + 1) * 2 =
      round_up (28 + (L + keysLength A + keysLength B)) + 2 * (A.length + 1 + B.length) := by omega
  unfold RestSafe at hsafe
  rw [← hvs'] at hsafe
  have hmoved := @moved (restHeader m otherOffset (L + keysLength A + keysLength B)
    (A.length + B.length + 1)) _ _ _ _ _ _ _ _ _ _ _ (keysLength S)
    (if ((S.length + A.length : Nat) : Int) ≤ (S.length : Nat) then A.length + B.length + 2
      else A.length) (((A.length + B.length + 2 : Nat) : Int) - (A.length : Nat) - 1).toNat hsafe rfl
    (show values node = keyLengths node + 2 * (S.length + A.length + B.length) by omega) hvs'
    (by omega) (by omega) (by omega) (by omega) length_of_keysLength
    (fun ha => if_neg (by have := length_of_keysLength ha; omega)) (by omega)
  have hparts := hmoved.copiedParts (c := fun i => keysLength ((S ++ (A ++ B)).take i)) rfl
    (by omega) hvs' (by omega) (by omega)
    (by omega) hv rfl rfl hlens hm (fun i hi => restHeader_behind hi) hr
  obtain ⟨hcount', hlength', hlinks⟩ := restHeader_spec (by omega) (by omega) ho hm28 hparts.head
  refine ⟨packed_of_header hcount' hlength' ?_ ?_
    (CopiedParts.slots (R := []) (by rw [append_nil]; exact h) hparts), hlinks⟩
  · simp only [length_append, length_cons]
    omega
  · simp only [keysLength_append, keysLength_cons, takeKey_length]
    omega

/-- **The old node without the new key.** -/
theorem moveRest_left {node m key r : Buffer} {S R : List Entry} {otherOffset ki v : Int}
    (h : Packed node (S ++ R)) (hf : Fits (S ++ R)) (hS : S ≠ []) (hki : ki < S.length)
    (ho : IsInt64 otherOffset)
    (hm : Rewritten node m (keyLengths node) S.length (S.length + R.length) fun i =>
      keysLength ((S ++ R).take (i + 1)) - keysLength S)
    (hr : r = moveRest ⟨S.length + R.length + 1, R.length + 1, 0, (keysLength R : Nat), 0, m⟩
      (keyLengths node) (values node) (keysLength S) S.length ki otherOffset key v) :
    Packed r R ∧ RestLinks node r otherOffset := by
  have hlen := hf.keysLength_le
  have hposR := length_le_keysLength fun e he => hf.key_pos e (mem_append_right S he)
  have hposS : S.length ≠ 0 := by simpa using hS
  have hKL := h.keyLengths_eq
  have hVS := h.values_eq
  rw [← hKL] at hVS
  simp only [keysLength_append, length_append] at hlen hKL hVS
  have hruKL := le_round_up (28 + (keysLength S + keysLength R))
  have hrukl := le_round_up (28 + keysLength R)
  have hmono := round_up_mono (show 28 + keysLength R ≤ 28 + (keysLength S + keysLength R) by omega)
  unfold moveRest at hr
  simp only [Int.toNat_natCast, Int.toNat_zero, ne_eq, not_true, if_false, Nat.zero_add,
    Nat.add_zero, Nat.add_sub_cancel] at hr
  rw [if_pos (by omega)] at hr
  have hm28 : ∀ i, i < 28 → m i = node i := fun i hi => hm.frame i (.inl (by omega))
  obtain ⟨hcount, hlength, hlinks⟩ := @restHeader_spec node m _ _ _ _
    (show keysLength R < 2 ^ 16 by omega) (show R.length < 2 ^ 16 by omega) ho hm28
    fun i _ => rfl
  obtain ⟨hkl, hvs⟩ := layout_of_header hcount hlength
  rw [hkl, hvs] at hr
  by_cases hR : keysLength R = 0
  · -- nothing is left
    obtain rfl : R = [] := eq_nil_of_length_eq_zero (by omega)
    simp only [moveArrays, movePair, hR, ne_eq, not_true, if_false] at hr
    rw [hr]
    exact ⟨⟨hcount, hlength, trivial⟩, hlinks⟩
  · simp only [moveArrays, movePair, hR, ne_eq, not_false_eq_true, not_true, if_true, if_false,
      keys, sizeofNode] at hr
    have hout : ∀ i, 28 + keysLength R ≤ i → memmove (restHeader m otherOffset (keysLength R)
        R.length) 28 (28 + keysLength S) (keysLength R) i = m i := by
      intro i hi
      rw [memmove_outside (by omega), restHeader_behind (by omega)]
    obtain ⟨hcount', hlength', hlinks'⟩ := @restHeader_spec node m r _ _ _
      (show keysLength R < 2 ^ 16 by omega) (show R.length < 2 ^ 16 by omega) ho hm28
      fun i hi => by
        rw [hr, memmove_outside (by omega), memmove_outside (by omega), memmove_outside (by omega)]
    refine ⟨packed_of_header hcount' hlength' rfl rfl ?_, hlinks'⟩
    have hslots := (slots_append.1 h.slots).2
    rw [Nat.zero_add, Nat.zero_add] at hslots
    refine hslots.move (fun i hi => ?_) (fun i hi => ?_) fun j hj => ?_
    · have hload : load16 r (round_up (28 + keysLength R) + 2 * (0 + i)) =
          load16 m (keyLengths node + 2 * (S.length + i)) := by
        refine load16_congr fun k hk => ?_
        rw [hr, memmove_outside (by omega), memmove_inside (by omega) (by omega), hout _ (by omega)]
        exact congrArg _ (by omega)
      have hle : keysLength S ≤ keysLength ((S ++ R).take (S.length + i + 1)) := by
        rw [take_append, take_of_length_le (by omega), keysLength_append]
        omega
      rw [hload, hm.lens _ (by omega) (by omega),
        h.keyEnd_succ (by simp only [length_append]; omega)]
      omega
    · refine load64_congr fun k hk => ?_
      rw [hr, memmove_inside (by omega) (by omega), memmove_outside (by omega), hout _ (by omega),
        hm.frame _ (.inr (by omega))]
      exact congrArg _ (by omega)
    · rw [hr, memmove_outside (by omega), memmove_outside (by omega),
        memmove_inside (by omega) (by omega), restHeader_behind (by omega),
        hm.frame _ (.inl (by omega))]
      exact congrArg _ (by omega)

/-! ## The second half of SplitNode -/

theorem Rewritten.append {node m r : Buffer} {kl start mid stop : Nat} {f g : Nat → Nat}
    (h₁ : Rewritten node m kl start mid f) (h₂ : Rewritten m r kl mid stop g)
    (hle : start ≤ mid ∧ mid ≤ stop) :
    Rewritten node r kl start stop fun i => if i < mid then f i else g i := by
  refine ⟨fun i hi hi' => ?_, fun x hx => ?_⟩
  · by_cases hlt : i < mid
    · rw [if_pos hlt, ← h₁.lens i hi hlt]
      exact load16_congr fun j hj => h₂.frame _ (.inl (by omega))
    · rw [if_neg hlt]
      exact h₂.lens i (by omega) hi'
  · rw [h₂.frame x (by omega), h₁.frame x (by omega)]

theorem keysLength_take_append (S R : List Entry) :
    keysLength ((S ++ R).take S.length) = keysLength S := by
  rw [take_left]

theorem keysLength_take_all (es : List Entry) {n : Nat} (h : es.length ≤ n) :
    keysLength (es.take n) = keysLength es := by
  rw [take_of_length_le h]

/-- The loop over the rest, with the new key among them. -/
theorem Packed.restLoop_right {node : Buffer} {S A B : List Entry} {L : Nat}
    (h : Packed node (S ++ (A ++ B))) (hf : Fits (S ++ (A ++ B))) (hL : 0 < L)
    (hL' : L ≤ BPLUSTREE_MAX_KEY_LENGTH) :
    ∃ m, restLoop (keyLengths node) (all_key_count node) L (keysLength S) S.length
          (S.length + A.length : Nat) (all_key_count node + 2) ⟨S.length, 0, 0, 0, 0, node⟩ =
        ⟨S.length + A.length + B.length + 1, A.length + B.length + 2, L, (keysLength A : Nat),
          (keysLength B : Nat), m⟩ ∧
      Rewritten node m (keyLengths node) S.length (S.length + A.length + B.length) fun i =>
        if i < S.length + A.length then
          keysLength ((S ++ (A ++ B)).take (i + 1)) - keysLength S
        else keysLength ((S ++ (A ++ B)).take (i + 1)) - keysLength S + L := by
  have hlen := hf.keysLength_le
  have htotal := keysLength_take_append S (A ++ B)
  have hki : keysLength ((S ++ (A ++ B)).take (S.length + A.length)) =
      keysLength S + keysLength A := by
    rw [← append_assoc, ← length_append, keysLength_take_append, keysLength_append]
  have hn : keysLength ((S ++ (A ++ B)).take (S.length + A.length + B.length)) =
      keysLength S + keysLength A + keysLength B := by
    rw [keysLength_take_all _ (by simp only [length_append]; omega), keysLength_append,
      keysLength_append, Nat.add_assoc]
  have hcount : all_key_count node = S.length + A.length + B.length := by
    rw [h.count, length_append, length_append, Nat.add_assoc]
  have hkeyEnd : ∀ i, i < S.length + A.length + B.length →
      load16 node (keyLengths node + 2 * i) = keysLength ((S ++ (A ++ B)).take (i + 1)) :=
    fun i hi => h.keyEnd_succ (by simp only [length_append]; omega)
  have hmono := fun i j hij => keysLength_take_le (S ++ (A ++ B)) (i := i) (j := j) hij
  simp only [keysLength_append, length_append, BPLUSTREE_MAX_KEY_LENGTH] at hlen hL'
  generalize S ++ (A ++ B) = es at *
  rw [hcount]
  -- up to the new key
  obtain ⟨m₁, hhead, hm₁⟩ := @restLoop_head (keyLengths node) _ L _ _
    (S.length + A.length : Nat) (fun i => keysLength (es.take i)) hmono htotal.symm _ rfl
    (show S.length + A.length ≤ S.length + A.length + B.length by omega) (by omega)
    A.length (S.length + A.length + B.length + 2) ⟨S.length, 0, 0, 0, 0, node⟩ rfl
    (Nat.le_refl _) rfl (by omega) fun i _ hi => hkeyEnd i (by omega)
  simp only [Nat.zero_add] at hhead hm₁
  have hbefore : (if S.length + A.length > S.length then
      (load16 m₁ (keyLengths node + 2 * (S.length + A.length - 1)) : Int) else 0) =
      (keysLength A : Nat) := by
    by_cases hA : A.length = 0
    · rw [if_neg (by omega), eq_nil_of_length_eq_zero hA]
      rfl
    · rw [if_pos (by omega), hm₁.lens _ (by omega) (by omega),
        show S.length + A.length - 1 + 1 = S.length + A.length by omega]
      simp only [hki]
      omega
  -- behind it
  obtain ⟨m₂, htail, hm₂⟩ := @restLoop_tail (keyLengths node)
    (S.length + A.length + B.length) L (keysLength S) S.length (S.length + A.length : Nat)
    (fun i => keysLength (es.take i)) hmono htotal.symm
    (S.length + A.length + B.length + 2 - A.length - 1)
    ⟨S.length + A.length, A.length + 1, L, (keysLength A : Nat), 0, m₁⟩ (by simp only; omega)
    (by simp only; omega) (.inl (by simp only; omega)) (Int.le_refl _) (by simp only; omega)
    (by simp only; omega) fun i hi hi' => by
      rw [← hkeyEnd i hi']
      exact load16_congr fun j hj => hm₁.frame _ (.inr (by simp only at hi; omega))
  refine ⟨m₂, ?_, hm₁.append hm₂ (by omega)⟩
  rw [hhead, show S.length + A.length + B.length + 2 - A.length =
    S.length + A.length + B.length + 2 - A.length - 1 + 1 by omega, restLoop,
    if_pos (by simp only; omega)]
  have hstep : restStep (keyLengths node) (S.length + A.length + B.length) L (keysLength S)
      S.length (S.length + A.length : Nat) ⟨S.length + A.length, A.length, 0, 0, 0, m₁⟩ =
      ⟨S.length + A.length, A.length + 1, L, (keysLength A : Nat), 0, m₁⟩ := by
    unfold restStep
    rw [if_pos ⟨rfl, rfl⟩]
    simp only [hbefore]
  simp only [hstep]
  rw [if_neg (by omega), htail]
  simp only [hn]
  congr 1
  · omega
  · by_cases hB : B.length = 0
    · rw [if_neg (by omega), eq_nil_of_length_eq_zero hB]
      rfl
    · rw [if_pos ⟨by omega, by omega⟩]
      omega

/-- The loop over the rest, without the new key. -/
theorem Packed.restLoop_left {node : Buffer} {S R : List Entry} {L : Nat} {ki : Int}
    (h : Packed node (S ++ R)) (hf : Fits (S ++ R)) (hki : ki < S.length) :
    ∃ m, adjustCounts (restLoop (keyLengths node) (all_key_count node) L (keysLength S) S.length
          ki (all_key_count node + 2) ⟨S.length, 0, 0, 0, 0, node⟩) (keyLengths node)
          (keysLength S) S.length ki =
        ⟨S.length + R.length + 1, R.length + 1, 0, (keysLength R : Nat), 0, m⟩ ∧
      Rewritten node m (keyLengths node) S.length (S.length + R.length) fun i =>
        keysLength ((S ++ R).take (i + 1)) - keysLength S := by
  have hlen := hf.keysLength_le
  have hKL := h.keyLengths_eq
  have hru := le_round_up (28 + keysLength (S ++ R))
  have hcount : all_key_count node = S.length + R.length := by
    rw [h.count, length_append]
  have hn : keysLength ((S ++ R).take (S.length + R.length)) = keysLength S + keysLength R := by
    rw [keysLength_take_all _ (by simp only [length_append]; omega), keysLength_append]
  have hlength := h.length
  simp only [keysLength_append, length_append] at hlen hlength
  obtain ⟨m, htail, hm⟩ := @restLoop_tail (keyLengths node) (S.length + R.length) L _ S.length ki
    (fun i => keysLength ((S ++ R).take i))
    (fun i j hij => keysLength_take_le _ hij) (keysLength_take_append S R).symm
    (S.length + R.length + 2) ⟨S.length, 0, 0, 0, 0, node⟩ (by simp only; omega) (Nat.le_refl _)
    (.inr hki) (by simp only; omega) (by simp only; omega) (by simp only; omega)
    fun i _ hi => h.keyEnd_succ (by simp only [length_append]; omega)
  simp only [Nat.add_zero] at hm
  refine ⟨m, ?_, hm⟩
  have hmlength : all_key_length m = keysLength S + keysLength R := by
    rw [← hlength]
    exact load16_congr fun j hj => hm.frame _ (.inl (by omega))
  rw [hcount, htail]
  unfold adjustCounts
  simp only
  rw [if_neg (by omega), if_pos hki, hmlength]
  simp only [Nat.zero_add, ne_eq, not_true, false_and, if_false]
  congr 1
  · omega
  · omega

/-- What `SplitNode()` hands to its caller besides the nodes: the key for the parent. -/
structure SplitDone (r : SplitResult) (other : Buffer) (otherOffset : Int) (parent : Key) :
    Prop where
  status : r.status = .B_OK
  other : r.other = other
  key : takeKey r.key r.keyLength = parent
  keyLength : r.keyLength = parent.length
  value : r.value = otherOffset

theorem takeKey_memcpy (key key' : Buffer) (n : Nat) :
    takeKey (memcpy key 0 key' 0 n) n = takeKey key' n := by
  refine map_congr_left fun i hi => ?_
  rw [mem_range] at hi
  rw [memcpy_inside (by omega) (by omega)]
  exact congrArg _ (by omega)

/-- **The second half, with the new key among the rest.** -/
theorem splitRest_right {node other key : Buffer} {S A B : List Entry} {otherOffset v : Int}
    {L : Nat} {newKey : Option (Buffer × Nat)} {total : Nat} (h : Packed node (S ++ (A ++ B)))
    (hf : Fits (S ++ (A ++ B))) (hS : S ≠ []) (hL : 0 < L) (hL' : L ≤ BPLUSTREE_MAX_KEY_LENGTH)
    (hv : IsInt64 v) (ho : IsInt64 otherOffset) (htotal : total = keysLength S)
    (hsafe : RestSafe node S.length A.length B.length (keysLength A) L (keysLength B)) {ki : Int}
    (hki : ki = (S.length + A.length : Nat)) :
    Packed (splitRest node other otherOffset S.length total ki key L v newKey).node
        (A ++ (takeKey key L, v) :: B) ∧
      RestLinks node (splitRest node other otherOffset S.length total ki key L v newKey).node
        otherOffset ∧
      SplitDone (splitRest node other otherOffset S.length total ki key L v newKey) other
        otherOffset (takeKey (parentKey other newKey).1 (parentKey other newKey).2) := by
  subst htotal hki
  obtain ⟨m, hloop, hm⟩ := h.restLoop_right hf hL hL'
  have hadjust : adjustCounts ⟨S.length + A.length + B.length + 1, A.length + B.length + 2, L,
      (keysLength A : Nat), (keysLength B : Nat), m⟩ (keyLengths node) (keysLength S) S.length
      (S.length + A.length : Nat) = ⟨S.length + A.length + B.length + 1, A.length + B.length + 2,
        L, (keysLength A : Nat), (keysLength B : Nat), m⟩ := by
    unfold adjustCounts
    rw [if_neg (by simp only; omega), if_neg (by omega)]
  unfold splitRest
  rw [hloop]
  simp only [hadjust]
  rw [if_neg (by omega)]
  obtain ⟨hpacked, hlinks⟩ := @moveRest_right _ _ key _ _ _ _ _ _ _ h hf hS hL hL' hv ho hsafe hm rfl
  exact ⟨hpacked, hlinks, rfl, rfl, takeKey_memcpy _ _ _, (takeKey_length _ _).symm, rfl⟩

/-- **The second half, without the new key.** -/
theorem splitRest_left {node other key : Buffer} {S R : List Entry} {otherOffset v : Int}
    {L : Nat} {newKey : Option (Buffer × Nat)} {total : Nat} (h : Packed node (S ++ R))
    (hf : Fits (S ++ R)) (hS : S ≠ []) (ho : IsInt64 otherOffset) (htotal : total = keysLength S)
    {ki : Int} (hki : ki < S.length) :
    Packed (splitRest node other otherOffset S.length total ki key L v newKey).node R ∧
      RestLinks node (splitRest node other otherOffset S.length total ki key L v newKey).node
        otherOffset ∧
      SplitDone (splitRest node other otherOffset S.length total ki key L v newKey) other
        otherOffset (takeKey (parentKey other newKey).1 (parentKey other newKey).2) := by
  subst htotal
  obtain ⟨m, hloop, hm⟩ := h.restLoop_left (L := L) hf hki
  unfold splitRest
  simp only [hloop]
  rw [if_neg (by omega)]
  obtain ⟨hpacked, hlinks⟩ := @moveRest_left _ _ key _ _ _ _ _ v h hf hS hki ho hm rfl
  exact ⟨hpacked, hlinks, rfl, rfl, takeKey_memcpy _ _ _, (takeKey_length _ _).symm, rfl⟩

end BFS

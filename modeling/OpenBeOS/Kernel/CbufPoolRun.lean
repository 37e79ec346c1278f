import OpenBeOS.Kernel.CbufPool
import OpenBeOS.Lib.Chain

/-! # No cbuf is lost or owned twice

In every history in which the pointer that `allocate_cbuf_mem` clears behind its last run is a null
pointer already, each cbuf whose bit is set is in one list, and all lists end.
-/

namespace Kernel

open Reachable Chain Function List

namespace CbufPool

variable {s s' : CbufPool} {lists : Owner → List Nat}

/-! ## What holds -/

/-- Each owner has a list that ends, and a cbuf is in one of them, and in no other, if its bit is
set. -/
def Accounted (s : CbufPool) : Prop :=
  ∃ lists, Chains s.next s.heads lists ∧ ∀ buf, s.bitmap buf = true ↔ ∃ o, buf ∈ lists o

/-- What the variables of a call say of the list that it allocates or frees. -/
def CallOk : PoolCall → List Nat → Prop
  | .allocate _ head_buf last_buf buf left _, temp =>
    temp.getLast? = last_buf ∧
      (last_buf = none → if left = 0 then head_buf = none else head_buf = buf) ∧
      (0 < left → buf ≠ none)
  | .clear _ buf tail _, temp => ∃ pre post, temp = pre ++ post ∧ buf = post.head? ∧
      tail = pre.getLast?
  | .freeAcquire _ last _, temp => temp.getLast? = some last
  | .freeLink _ last _, temp => temp.getLast? = some last
  | _, _ => True

structure Sound (s : CbufPool) (lists : Owner → List Nat) : Prop where
  chains : Chains s.next s.heads lists
  cover : ∀ buf, s.bitmap buf = true ↔ ∃ o, buf ∈ lists o
  fresh : ∀ buf, s.bitmap buf = false → s.next buf = none
  calls : ∀ i, CallOk (s.calls i) (lists (.call i .temp))
  runs : ∀ i buf, (lists (.call i (.fresh buf))).length ≤ 1

theorem Sound.not_mem (h : s.Sound lists) {buf : Nat} (hclear : s.bitmap buf = false) (o : Owner) :
    buf ∉ lists o := fun hmem =>
  Bool.false_ne_true (hclear.symm.trans ((h.cover buf).mpr ⟨o, hmem⟩))

theorem Sound.lists_nil (h : s.Sound lists) {o : Owner} (hhead : s.heads o = none) :
    lists o = [] := by
  have hleads := h.chains.leads o
  rw [hhead] at hleads
  exact hleads.eq_nil

/-- What a step of the thread `i` leaves alone. -/
structure Others (s s' : CbufPool) (i : Nat) : Prop where
  bitmap : s'.bitmap = s.bitmap
  calls : ∀ j ≠ i, s'.calls j = s.calls j

section

variable (h : s.Sound lists) {i : Nat} (hothers : Others s s' i)
include h hothers

/-- A step that moves no cbuf. -/
theorem Sound.quiet
    (hnext : s'.next = s.next) (hfree : s'.free_list = s.free_list) (hlive : s'.live = s.live)
    (hhead : ∀ part, head (s'.calls i) part = head (s.calls i) part)
    (hok : CallOk (s'.calls i) (lists (.call i .temp))) : s'.Sound lists := by
  have hheads : s'.heads = s.heads := by
    funext o
    cases o with
    | free => exact hfree
    | live k => exact congrFun hlive k
    | call j part =>
      by_cases hj : j = i
      · subst hj
        exact hhead part
      · exact congrArg (head · part) (hothers.calls j hj)
  refine ⟨?_, ?_, ?_, fun j => ?_, h.runs⟩
  · rw [hnext, hheads]
    exact h.chains
  · rw [hothers.bitmap]
    exact h.cover
  · rw [hothers.bitmap, hnext]
    exact h.fresh
  · by_cases hj : j = i
    · subst hj
      exact hok
    · rw [hothers.calls j hj]
      exact h.calls j

/-- A step that moves cbufs between two lists, of the thread `i` or of no thread. -/
theorem Sound.between {k k' : Owner}
    (hne : k ≠ k') (hi : ∀ j part, k = .call j part ∨ k' = .call j part → j = i) {xs ys : List Nat}
    (hk : Leads s'.next (s'.heads k) xs none) (hk' : Leads s'.next (s'.heads k') ys none)
    (hperm : (xs ++ ys).Perm (lists k ++ lists k'))
    (hnext : ∀ x, s'.next x = s.next x ∨ x ∈ lists k ∨ x ∈ lists k')
    (hfree : k = .free ∨ k' = .free ∨ s'.free_list = s.free_list)
    (hlive : ∀ n, k = .live n ∨ k' = .live n ∨ s'.live n = s.live n)
    (hhead : ∀ part, k = .call i part ∨ k' = .call i part ∨
      head (s'.calls i) part = head (s.calls i) part)
    (hok : CallOk (s'.calls i)
      (update (update lists k xs) k' ys (.call i .temp)))
    (hruns : xs.length ≤ 1 ∨ ∀ j buf, k ≠ .call j (.fresh buf))
    (hruns' : ∀ j buf, k' ≠ .call j (.fresh buf)) :
    s'.Sound (update (update lists k xs) k' ys) := by
  have hlistk : update (update lists k xs) k' ys k = xs := by
    rw [update_of_ne hne, update_self]
  have hlistk' : update (update lists k xs) k' ys k' = ys := update_self ..
  have hlist : ∀ o, o ≠ k → o ≠ k' → update (update lists k xs) k' ys o = lists o :=
    fun o hok hok' => by rw [update_of_ne hok', update_of_ne hok]
  have hheads : ∀ o, o ≠ k → o ≠ k' → s'.heads o = s.heads o := by
    intro o ho ho'
    cases o with
    | free => exact (hfree.resolve_left (Ne.symm ho)).resolve_left (Ne.symm ho')
    | live n => exact ((hlive n).resolve_left (Ne.symm ho)).resolve_left (Ne.symm ho')
    | call j part =>
      by_cases hj : j = i
      · subst hj
        exact ((hhead part).resolve_left (Ne.symm ho)).resolve_left (Ne.symm ho')
      · exact congrArg (head · part) (hothers.calls j hj)
  have hapart : ∀ x ∈ lists k, x ∉ lists k' := h.chains.apart k k' hne
  have hnodup : (xs ++ ys).Nodup := hperm.nodup_iff.mpr
    (nodup_append.mpr ⟨h.chains.nodup k, h.chains.nodup k',
      fun x hx y hy heq => hapart x hx (heq ▸ hy)⟩)
  obtain ⟨hnodupX, hnodupY, hdisj⟩ := nodup_append.mp hnodup
  have hmem : ∀ x, x ∈ xs ∨ x ∈ ys ↔ x ∈ lists k ∨ x ∈ lists k' := fun x => by
    rw [← mem_append, ← mem_append]
    exact hperm.mem_iff
  refine ⟨h.chains.replace k k' ?_ ?_ ?_ ?_ ?_, fun x => ?_, fun x hclear => ?_,
    fun j => ?_, fun j x => ?_⟩
  · rwa [hlistk]
  · rwa [hlistk']
  · rw [hlistk, hlistk']
    exact ⟨hnodupX, hnodupY, fun x hx hy => hdisj x hx x hy rfl⟩
  · intro x
    rw [hlistk, hlistk']
    exact (hmem x).mp
  · intro o hok hok'
    refine ⟨hheads o hok hok', hlist o hok hok', fun x hx => ?_⟩
    rcases hnext x with hsame | hin | hin
    · exact hsame
    · exact absurd hin (h.chains.apart o k hok x hx)
    · exact absurd hin (h.chains.apart o k' hok' x hx)
  · rw [hothers.bitmap, h.cover x]
    refine (mem_some_transfer k k' ?_ hlist).symm
    rw [hlistk, hlistk']
    exact hmem x
  · rw [hothers.bitmap] at hclear
    rcases hnext x with hsame | hin | hin
    · exact hsame.trans (h.fresh x hclear)
    · exact absurd hin (h.not_mem hclear k)
    · exact absurd hin (h.not_mem hclear k')
  · by_cases hj : j = i
    · subst hj
      exact hok
    · have hjk : (Owner.call j .temp) ≠ k := fun heq => hj (hi j .temp (.inl heq.symm))
      have hjk' : (Owner.call j .temp) ≠ k' := fun heq => hj (hi j .temp (.inr heq.symm))
      rw [hothers.calls j hj, hlist _ hjk hjk']
      exact h.calls j
  · by_cases hjk : k = .call j (.fresh x)
    · rw [← hjk, hlistk]
      exact hruns.resolve_right fun hnot => hnot j x hjk
    · rw [hlist _ (Ne.symm hjk) (Ne.symm (hruns' j x))]
      exact h.runs j x

theorem Sound.move {k k' : Owner}
    (hne : k ≠ k') (hi : ∀ j part, k = .call j part ∨ k' = .call j part → j = i)
    (hnext : s'.next = s.next) (hempty : s.heads k' = none) (hk : s'.heads k = none)
    (hk' : s'.heads k' = s.heads k) (hfree : k = .free ∨ k' = .free ∨ s'.free_list = s.free_list)
    (hlive : ∀ n, k = .live n ∨ k' = .live n ∨ s'.live n = s.live n)
    (hhead : ∀ part, k = .call i part ∨ k' = .call i part ∨
      head (s'.calls i) part = head (s.calls i) part)
    (hok : CallOk (s'.calls i)
      (update (update lists k []) k' (lists k) (.call i .temp)))
    (hruns' : ∀ j buf, k' ≠ .call j (.fresh buf)) :
    s'.Sound (update (update lists k []) k' (lists k)) := by
  refine h.between hothers hne hi ?_ ?_ ?_ (fun x => .inl (by rw [hnext])) hfree hlive hhead hok
    (.inl (Nat.zero_le 1)) hruns'
  · rw [hk]
    rfl
  · rw [hnext, hk']
    exact h.chains.leads k
  · rw [h.lists_nil hempty, append_nil, nil_append]

end

/-! ## Runs of clear bits -/

/-- A run that ends in front of the bit `i`, with its size. -/
def IsRun (bitmap : Nat → Bool) (i : Nat) (start : Option Nat) (len_found : Nat) : Prop :=
  ∃ b count, start = some b ∧ len_found = CBUF_LEN * count ∧ 0 < count ∧ b + count ≤ i ∧
    ∀ x, b ≤ x → x < b + count → bitmap x = false

theorem findRun_spec {bitmap : Nat → Bool} {size : Nat} : ∀ {left : Nat} {start : Option Nat}
    {len_found : Nat}, left ≤ CBUF_BITMAP_SIZE →
    (start = none ∧ len_found = 0) ∨ (IsRun bitmap (CBUF_BITMAP_SIZE - left) start len_found ∧
      ∀ b, start = some b → CBUF_LEN * b + len_found = CBUF_LEN * (CBUF_BITMAP_SIZE - left)) →
    (findRun bitmap size left start len_found).1 = none ∨
      IsRun bitmap CBUF_BITMAP_SIZE (findRun bitmap size left start len_found).1
        (findRun bitmap size left start len_found).2
  | 0, start, len_found, _, h => by
    rcases h with ⟨rfl, -⟩ | ⟨hrun, -⟩
    · exact .inl rfl
    · exact .inr hrun
  | left + 1, start, len_found, hleft, h => by
    have hi : CBUF_BITMAP_SIZE - (left + 1) + 1 = CBUF_BITMAP_SIZE - left := by omega
    unfold findRun
    generalize CBUF_BITMAP_SIZE - (left + 1) = i at *
    by_cases hbit : bitmap i = true
    · rw [if_neg (not_not.mpr hbit)]
      rcases h with ⟨rfl, rfl⟩ | ⟨⟨b, count, rfl, hlen, hpos, hle, hclear⟩, -⟩
      · exact findRun_spec (Nat.le_of_succ_le hleft) (.inl ⟨rfl, rfl⟩)
      · exact .inr ⟨b, count, rfl, hlen, hpos, by omega, hclear⟩
    · -- the run goes on with this bit
      have hgrown : IsRun bitmap (i + 1) (some (start.getD i)) (len_found + CBUF_LEN) ∧
          ∀ b, some (start.getD i) = some b →
            CBUF_LEN * b + (len_found + CBUF_LEN) = CBUF_LEN * (i + 1) := by
        rcases h with ⟨rfl, rfl⟩ | ⟨⟨b, count, rfl, hlen, hpos, hle, hclear⟩, hend⟩
        · refine ⟨⟨i, 1, rfl, by omega, Nat.one_pos, Nat.le_refl _, fun x hx hx' => ?_⟩, ?_⟩
          · obtain rfl : x = i := by omega
            exact Bool.eq_false_iff.mpr hbit
          · rintro b hb
            cases hb
            show CBUF_LEN * i + (0 + CBUF_LEN) = _
            rw [Nat.mul_succ, Nat.zero_add]
        · have hend := hend b rfl
          have hcount : b + count = i := by
            unfold CBUF_LEN at *
            omega
          refine ⟨⟨b, count + 1, rfl, ?_, Nat.succ_pos _, by omega, fun x hx hx' => ?_⟩, ?_⟩
          · rw [hlen, Nat.mul_succ]
          · by_cases hlast : x = i
            · rw [hlast]
              exact Bool.eq_false_iff.mpr hbit
            · exact hclear x hx (by omega)
          · rintro b' hb'
            cases hb'
            show CBUF_LEN * b + (len_found + CBUF_LEN) = _
            rw [Nat.mul_succ, ← hend, Nat.add_assoc]
      rw [if_pos hbit]
      split
      · obtain ⟨b, count, hstart, hlen, hpos, hle, hclear⟩ := hgrown.1
        exact .inr ⟨b, count, hstart, hlen, hpos, by omega, hclear⟩
      · rw [hi] at hgrown
        exact findRun_spec (Nat.le_of_succ_le hleft) (.inr hgrown)

theorem cbuf_alloc_spec {size : Nat} {r : Option (Nat × Nat)} (h : s.cbuf_alloc size = (r, s')) :
    (r = none ∧ s' = s) ∨ ∃ start count, r = some (start, CBUF_LEN * count) ∧ 0 < count ∧
      s' = { s with bitmap := setBits s.bitmap start count } ∧
      ∀ x, start ≤ x → x < start + count → s.bitmap x = false := by
  have hrun := @findRun_spec s.bitmap size CBUF_BITMAP_SIZE none 0 (Nat.le_refl _) (.inl ⟨rfl, rfl⟩)
  unfold cbuf_alloc at h
  generalize findRun s.bitmap size CBUF_BITMAP_SIZE none 0 = found at *
  obtain ⟨start, len_found⟩ := found
  cases start with
  | none =>
    cases h
    exact .inl ⟨rfl, rfl⟩
  | some start =>
    cases h
    rcases hrun with hnone | ⟨b, count, hstart, hlen, hpos, -, hclear⟩
    · cases hnone
    · cases hstart
      obtain rfl : len_found = CBUF_LEN * count := hlen
      refine .inr ⟨start, count, rfl, hpos, ?_, hclear⟩
      rw [Nat.mul_div_cancel_left count (by decide)]

/-! ## The steps -/

theorem setCall_self (i : Nat) (call : PoolCall) : (s.setCall i call).calls i = call :=
  update_self ..

theorem Sound.temp_head (h : s.Sound lists) (i : Nat) :
    head (s.calls i) .temp = (lists (.call i .temp)).head? := (h.chains.leads (.call i .temp)).head

/-- The bits that are being allocated are each a buffer on its own. -/
def freshOf (i start count : Nat) : Owner → Option Nat
  | .call j (.fresh x) => if j = i ∧ start ≤ x ∧ x < start + count then some x else none
  | _ => none

section

variable (h : s.Sound lists)
include h

/-- A run of clear bits is allocated. -/
theorem Sound.allocate {i size : Nat} {head_buf last_buf buf : Option Nat}
    {get : Option GetLocals} (hcall : s.calls i = .allocate size head_buf last_buf buf 0 get)
    {start count size' : Nat} (hpos : 0 < count)
    (hclear : ∀ x, start ≤ x → x < start + count → s.bitmap x = false) :
    ∃ lists, Sound ({ s with bitmap := setBits s.bitmap start count }.setCall i
      (.allocate size' (some (head_buf.getD start)) last_buf (some start) count get)) lists := by
  obtain ⟨hlast, hhead, -⟩ : CallOk (.allocate size head_buf last_buf buf 0 get) _ :=
    hcall ▸ h.calls i
  have htemp := h.temp_head i
  rw [hcall] at htemp
  have hhead' : ∀ last, last_buf = some last → some (head_buf.getD start) = head_buf := by
    rintro last rfl
    have hne : lists (.call i .temp) ≠ [] := by
      intro hnil
      rw [hnil] at hlast
      cases hlast
    obtain ⟨first, rest, hcons⟩ := exists_cons_of_ne_nil hne
    rw [hcons] at htemp
    have hfirst : head_buf = some first := htemp
    rw [hfirst]
    rfl
  obtain ⟨single, hsingle⟩ : ∃ single, single = freshOf i start count := ⟨_, rfl⟩
  have hsome : ∀ {o x}, single o = some x → o = .call i (.fresh x) ∧ start ≤ x ∧ x < start + count := by
    intro o x hx
    rw [hsingle] at hx
    cases o with
    | free | live k => cases hx
    | call j part =>
      cases part with
      | made => cases hx
      | temp => cases hx
      | fresh y =>
        simp only [freshOf] at hx
        split at hx
        · rename_i hin
          cases hx
          exact ⟨by rw [hin.1], hin.2⟩
        · cases hx
  have hin : ∀ {x}, start ≤ x → x < start + count → single (.call i (.fresh x)) = some x := by
    intro x hle hlt
    rw [hsingle]
    exact if_pos ⟨rfl, hle, hlt⟩
  refine ⟨fun o => (single o).elim (lists o) fun x => [x],
    h.chains.singles (f := single) ?_ ?_ ?_, fun x => ?_, fun x hx => ?_, fun j => ?_, fun j x => ?_⟩
  · intro o x hx
    obtain ⟨rfl, hle, hlt⟩ := hsome hx
    refine ⟨?_, by rw [hx]; rfl, h.fresh x (hclear x hle hlt), h.not_mem (hclear x hle hlt)⟩
    show head (update s.calls i _ i) (.fresh x) = some x
    rw [update_self]
    exact if_pos ⟨hle, hlt⟩
  · intro o hnone
    refine ⟨?_, by rw [hnone]; rfl⟩
    cases o with
    | free | live k => rfl
    | call j part =>
      show head (update s.calls i _ j) part = head (s.calls j) part
      by_cases hj : j = i
      · subst hj
        rw [update_self, hcall]
        cases part with
        | made => rfl
        | temp =>
          cases last_buf with
          | none => rfl
          | some last => exact hhead' last rfl
        | fresh x =>
          have hout : ¬ (start ≤ x ∧ x < start + count) := fun hx =>
            absurd (hnone.symm.trans (hin hx.1 hx.2)) (by simp)
          show (if start ≤ x ∧ x < start + count then some x else none) = _
          rw [if_neg hout]
          cases buf with
          | none => rfl
          | some b => exact (if_neg (by omega)).symm
      · rw [update_of_ne hj]
  · intro o o' x hx hx'
    rw [(hsome hx).1, (hsome hx').1]
  · show (s.bitmap x || (decide (start ≤ x) && decide (x < start + count))) = true ↔ _
    rw [Bool.or_eq_true, Bool.and_eq_true, decide_eq_true_eq, decide_eq_true_eq, h.cover x]
    constructor
    · rintro (⟨o, hx⟩ | ⟨hle, hlt⟩)
      · cases ho : single o with
        | none => exact ⟨o, by rwa [ho]⟩
        | some y =>
          -- the list of such an owner was empty
          obtain ⟨rfl, hle, hlt⟩ := hsome ho
          have hnone : s.heads (.call i (.fresh y)) = none := by
            show head (s.calls i) (.fresh y) = none
            rw [hcall]
            cases buf with
            | none => rfl
            | some b => exact if_neg (by omega)
          rw [h.lists_nil hnone] at hx
          exact absurd hx not_mem_nil
      · exact ⟨.call i (.fresh x), by rw [hin hle hlt]; exact mem_singleton_self x⟩
    · rintro ⟨o, hx⟩
      cases ho : single o with
      | none =>
        rw [ho] at hx
        exact .inl ⟨o, hx⟩
      | some y =>
        rw [ho] at hx
        obtain rfl := mem_singleton.mp hx
        exact .inr (hsome ho).2
  · have hold : s.bitmap x = false := (Bool.or_eq_false_iff.mp hx).1
    exact h.fresh x hold
  · have hnone : single (.call j .temp) = none := by rw [hsingle]; rfl
    rw [hnone]
    show CallOk (update s.calls i _ j) (lists (.call j .temp))
    by_cases hj : j = i
    · subst hj
      rw [update_self]
      refine ⟨hlast, fun hnone => ?_, fun _ => by simp⟩
      have hnil : head_buf = none := by simpa using hhead hnone
      rw [if_neg (by omega), hnil]
      rfl
    · rw [update_of_ne hj]
      exact h.calls j
  · cases hx : single (.call j (.fresh x)) with
    | none => exact h.runs j x
    | some y => exact Nat.le_refl 1

/-- The next cbuf of a run is linked. -/
theorem Sound.link {i size left buf : Nat} {head_buf last_buf : Option Nat}
    {get : Option GetLocals}
    (hcall : s.calls i = .allocate size head_buf last_buf (some buf) (left + 1) get) :
    ∃ lists, Sound (((last_buf.map fun last => (s.initialize_cbuf buf).setNext last (some buf)).getD
      (s.initialize_cbuf buf)).setCall i
      (.allocate size head_buf (some buf) (some (buf + 1)) left get)) lists := by
  obtain ⟨hlast, hhead, -⟩ : CallOk (.allocate size head_buf last_buf (some buf) (left + 1) get) _ :=
    hcall ▸ h.calls i
  have hfresh : s.heads (.call i (.fresh buf)) = some buf := by
    show head (s.calls i) _ = _
    rw [hcall]
    exact if_pos ⟨Nat.le_refl _, by omega⟩
  have htemp := h.chains.leads (.call i .temp)
  have htempHead : s.heads (.call i .temp) = last_buf.bind fun _ => head_buf := by
    show head (s.calls i) _ = _
    rw [hcall]
    rfl
  rw [htempHead] at htemp
  -- the cbuf is alone in its list
  have hleads := h.chains.leads (.call i (.fresh buf))
  have hfirst : (lists (.call i (.fresh buf))).head? = some buf := by
    rw [← hleads.head]
    exact hfresh
  obtain ⟨rest, hlist⟩ := List.head?_eq_some_iff.mp hfirst
  have hrest : rest = [] := by
    have hruns := h.runs i buf
    rw [hlist, length_cons] at hruns
    exact length_eq_zero_iff.mp (by omega)
  subst hrest
  rw [hlist, hfresh] at hleads
  have hnot : buf ∉ lists (.call i .temp) := h.chains.apart (.call i (.fresh buf)) (.call i .temp)
    nofun buf (hlist ▸ mem_cons_self)
  -- what the two cases have in common
  have hboth : ∀ next, Leads next head_buf (lists (.call i .temp) ++ [buf]) none →
      (∀ x, next x = s.next x ∨ x ∈ lists (.call i .temp)) →
      ∃ lists, Sound (({ s.initialize_cbuf buf with next }).setCall i
        (.allocate size head_buf (some buf) (some (buf + 1)) left get)) lists := by
    intro next hnew hnext
    refine ⟨_, @Sound.between s (({ s.initialize_cbuf buf with next }).setCall i _) lists h i
      ⟨rfl, fun j hj => update_of_ne hj ..⟩ (.call i (.fresh buf)) (.call i .temp) nofun ?_ []
      (lists (.call i .temp) ++ [buf]) ?_ ?_ ?_ ?_ (.inr (.inr rfl)) (fun n => .inr (.inr rfl)) ?_ ?_
      (.inl (Nat.zero_le 1)) nofun⟩
    · rintro j part (heq | heq)
      · exact (Owner.call.inj heq).1.symm
      · exact (Owner.call.inj heq).1.symm
    · show head (update s.calls i _ i) _ = none
      rw [update_self]
      exact if_neg (by omega)
    · show Leads next (head (update s.calls i _ i) _) _ none
      rw [update_self]
      exact hnew
    · rw [hlist, nil_append]
      exact perm_append_comm
    · intro x
      rcases hnext x with hsame | hin
      · exact .inl hsame
      · exact .inr (.inr hin)
    · intro part
      cases part with
      | made =>
        refine .inr (.inr ?_)
        rw [setCall_self, hcall]
        rfl
      | temp => exact .inr (.inl rfl)
      | fresh x =>
        by_cases hx : x = buf
        · exact .inl (by rw [hx])
        · refine .inr (.inr ?_)
          rw [setCall_self, hcall]
          show (if buf + 1 ≤ x ∧ x < buf + 1 + left then some x else none) =
            if buf ≤ x ∧ x < buf + (left + 1) then some x else none
          congr 1
          rw [eq_iff_iff]
          omega
    · rw [setCall_self, update_self]
      exact ⟨List.getLast?_concat, nofun, fun _ => nofun⟩
  cases hbuf : last_buf with
  | none =>
    subst hbuf
    have hnil : lists (.call i .temp) = [] := List.getLast?_eq_none_iff.mp hlast
    have hstart : head_buf = some buf := by
      have := hhead rfl
      rwa [if_neg (Nat.succ_ne_zero left)] at this
    refine hboth s.next ?_ fun x => .inl rfl
    rw [hnil, hstart]
    exact hleads
  | some last =>
    subst hbuf
    obtain ⟨init, hinit⟩ := List.getLast?_eq_some_iff.mp hlast
    have hnodup := h.chains.nodup (.call i .temp)
    rw [hinit] at htemp hnodup hnot
    refine hboth (update s.next last (some buf)) ?_ fun x => ?_
    · rw [hinit, append_assoc]
      refine Leads.extend htemp (fun hmem => ?_) hleads.2 fun heq => hnot (heq ▸ by simp)
      exact (nodup_append.mp hnodup).2.2 last hmem last (mem_singleton_self last) rfl
    · by_cases hx : x = last
      · exact .inr (by rw [hinit, hx]; simp)
      · exact .inl (update_of_ne hx ..)

/-- A free cbuf is taken. -/
theorem Sound.take {i : Nat} {g g' : GetLocals} (hcall : s.calls i = .take g)
    {temp : Nat} (hfree : s.free_list = some temp) (hchain : g'.chain = some temp) :
    ∃ lists, Sound (({ s with free_list := s.next temp }.setNext temp g.chain).setCall i
      (.take g')) lists := by
  have hleads : Leads s.next (some temp) (lists .free) none := hfree ▸ h.chains.leads .free
  have hmade : Leads s.next g.chain (lists (.call i .made)) none := by
    have hmade := h.chains.leads (.call i .made)
    have hhead : s.heads (.call i .made) = g.chain := by
      show head (s.calls i) _ = _
      rw [hcall]
      rfl
    rwa [hhead] at hmade
  obtain ⟨rest, hlist⟩ := List.head?_eq_some_iff.mp hleads.head.symm
  have hnodup := h.chains.nodup .free
  have hnot : temp ∉ lists (.call i .made) :=
    h.chains.apart .free (.call i .made) nofun temp (hlist ▸ mem_cons_self)
  rw [hlist] at hleads hnodup
  refine ⟨_, @Sound.between s (({ s with free_list := s.next temp }.setNext temp g.chain).setCall i _)
    lists h i ⟨rfl, fun j hj => update_of_ne hj ..⟩
    .free (.call i .made) nofun ?_ rest (temp :: lists (.call i .made)) ?_ ?_ ?_ ?_ (.inl rfl)
    (fun n => .inr (.inr rfl)) ?_ ?_ (.inr nofun) nofun⟩
  · rintro j part (heq | heq)
    · cases heq
    · exact (Owner.call.inj heq).1.symm
  · exact hleads.2.update (nodup_cons.mp hnodup).1
  · show Leads _ (head (update s.calls i _ i) _) _ none
    rw [update_self]
    show Leads _ g'.chain _ none
    rw [hchain]
    exact hmade.push hnot
  · rw [hlist]
    exact perm_middle
  · intro x
    by_cases hx : x = temp
    · exact .inr (.inl (by rw [hlist, hx]; exact mem_cons_self))
    · exact .inl (update_of_ne hx ..)
  · intro part
    rw [setCall_self, hcall]
    cases part with
    | made => exact .inr (.inl rfl)
    | temp | fresh x => exact .inr (.inr rfl)
  · rw [setCall_self]
    trivial

/-- The chain that is freed is put in front of the free list. -/
theorem Sound.freeLink {i first last : Nat} {get : Option GetLocals}
    (hcall : s.calls i = .freeLink first last get) :
    ∃ lists, Sound (({ s with free_list := some first, holder := none }.setNext last
      s.free_list).setCall i (afterFree get)) lists := by
  have hlast : CallOk (.freeLink first last get) (lists (.call i .temp)) := hcall ▸ h.calls i
  have htemp : Leads s.next (some first) (lists (.call i .temp)) none := by
    have htemp := h.chains.leads (.call i .temp)
    have hhead : s.heads (.call i .temp) = some first := by
      show head (s.calls i) _ = _
      rw [hcall]
      rfl
    rwa [hhead] at htemp
  obtain ⟨init, hinit⟩ := List.getLast?_eq_some_iff.mp hlast
  have hnodup := h.chains.nodup (.call i .temp)
  have hnot : last ∉ lists .free :=
    h.chains.apart (.call i .temp) .free nofun last (by rw [hinit]; simp)
  rw [hinit] at htemp hnodup
  have hinitNot : last ∉ init := fun hmem =>
    (nodup_append.mp hnodup).2.2 last hmem last (mem_singleton_self last) rfl
  refine ⟨_, @Sound.between s
    (({ s with free_list := some first, holder := none }.setNext last s.free_list).setCall i _)
    lists h i ⟨rfl, fun j hj => update_of_ne hj ..⟩ (.call i .temp) .free nofun ?_ [] (lists (.call i .temp) ++ lists .free) ?_ ?_ ?_ ?_
    (.inr (.inl rfl)) (fun n => .inr (.inr rfl)) ?_ ?_ (.inl (Nat.zero_le 1)) nofun⟩
  · rintro j part (heq | heq)
    · exact (Owner.call.inj heq).1.symm
    · cases heq
  · show head (update s.calls i _ i) _ = none
    rw [update_self]
    cases get with
    | none | some g => rfl
  · rw [hinit, append_assoc]
    exact htemp.relink hinitNot (h.chains.leads .free) hnot
  · exact List.Perm.refl _
  · intro x
    by_cases hx : x = last
    · exact .inr (.inl (by rw [hinit, hx]; simp))
    · exact .inl (update_of_ne hx ..)
  · intro part
    rw [setCall_self, hcall]
    cases part with
    | temp => exact .inl rfl
    | made | fresh x =>
      refine .inr (.inr ?_)
      cases get with
      | none => rfl
      | some g => rfl
  · rw [setCall_self]
    cases get with
    | none | some g => trivial

/-- The list that a thread has allocated or made gets another owner. -/
theorem Sound.hand {i : Nat} (part : Part) (k' : Owner) {call : PoolCall}
    {t : CbufPool} (hbitmap : t.bitmap = s.bitmap) (hcalls : t.calls = s.calls)
    (hnext : t.next = s.next) (hfree : t.free_list = s.free_list)
    (hk' : k' = .call i .temp ∨ ∃ n, k' = .live n) (hne : Owner.call i part ≠ k')
    (hempty : s.heads k' = none) (hk : head call part = none)
    (hgot : (t.setCall i call).heads k' = head (s.calls i) part)
    (hlive : ∀ n, k' = .live n ∨ t.live n = s.live n)
    (hhead : ∀ part', part' ≠ part → k' ≠ .call i part' → head call part' = head (s.calls i) part')
    (hok : CallOk call (update (update lists (.call i part) []) k'
      (lists (.call i part)) (.call i .temp))) :
    ∃ lists, Sound (t.setCall i call) lists := by
  have hself : (t.setCall i call).calls i = call := setCall_self ..
  refine ⟨_, @Sound.move s (t.setCall i call) lists h i
    ⟨hbitmap, fun j hj => (update_of_ne hj ..).trans (congrFun hcalls j)⟩ (.call i part) k'
    hne ?_ hnext hempty ?_ hgot (.inr (.inr hfree)) ?_ ?_ (hself.symm ▸ hok) ?_⟩
  · rintro j part' (heq | heq)
    · exact (Owner.call.inj heq).1.symm
    · rcases hk' with rfl | ⟨n, rfl⟩
      · exact (Owner.call.inj heq).1.symm
      · cases heq
  · show head ((t.setCall i call).calls i) part = none
    rwa [hself]
  · intro n
    exact .inr (hlive n)
  · intro part'
    rw [hself]
    by_cases hpart : part' = part
    · exact .inl (by rw [hpart])
    · by_cases hk : k' = .call i part'
      · exact .inr (.inl hk)
      · exact .inr (.inr (hhead part' hpart hk))
  · rcases hk' with rfl | ⟨n, rfl⟩
    · exact nofun
    · exact nofun

/-- What `allocate_cbuf_mem` has made is kept by its caller, or freed by `cbuf_get_chain`. -/
theorem Sound.returnMem {i k : Nat} {head_buf buf : Option Nat}
    {get : Option GetLocals} (hcall : s.calls i = .finish head_buf buf get)
    (hs' : s.returnMem i k head_buf get = some s') : ∃ lists, Sound s' lists := by
  have htemp := h.temp_head i
  rw [hcall] at htemp
  unfold CbufPool.returnMem at hs'
  cases get with
  | none =>
    dsimp only at hs'
    split at hs'
    · rename_i hlive
      cases hs'
      refine h.hand .temp (.live k) rfl rfl rfl rfl (.inr ⟨k, rfl⟩) nofun hlive rfl
        ?_ ?_ ?_ trivial
      · rw [hcall]
        exact update_self ..
      · intro n
        by_cases hn : n = k
        · exact .inl (by rw [hn])
        · exact .inr (update_of_ne hn ..)
      · intro part' hpart _
        rw [hcall]
        cases part' with
        | made => rfl
        | temp => exact absurd rfl hpart
        | fresh x => rfl
    · cases hs'
  | some g =>
    cases head_buf with
    | some temp =>
      cases hs'
      refine ⟨lists, h.quiet ⟨rfl, fun j hj => update_of_ne hj ..⟩ rfl rfl rfl ?_ ?_⟩
      · intro part
        rw [setCall_self, hcall]
        cases part with
        | made => rfl
        | temp => rfl
        | fresh x => rfl
      · rw [setCall_self]
        exact ⟨[], lists (.call i .temp), rfl, htemp, rfl⟩
    | none =>
      cases hs'
      cases hchain : g.chain with
      | none =>
        refine ⟨lists, h.quiet ⟨rfl, fun j hj => update_of_ne hj ..⟩ rfl rfl rfl ?_ ?_⟩
        · intro part
          rw [setCall_self, hcall]
          cases part with
          | made => exact hchain.symm
          | temp => rfl
          | fresh x => rfl
        · rw [setCall_self]
          trivial
      | some c =>
        have hmade : head (s.calls i) .made = some c := by
          rw [hcall]
          exact hchain
        have hlist : (lists (.call i .made)).head? = some c := by
          rw [← (h.chains.leads (.call i .made)).head]
          exact hmade
        refine h.hand .made (.call i .temp) rfl rfl rfl rfl (.inl rfl) nofun ?_
          rfl ?_ (fun n => .inr rfl) ?_ ?_
        · show head (s.calls i) _ = none
          rw [hcall]
          rfl
        · show head ((s.setCall i _).calls i) .temp = _
          rw [setCall_self, hmade]
          rfl
        · intro part' hpart hk
          rw [hcall]
          cases part' with
          | made => exact absurd rfl hpart
          | temp => exact absurd rfl hk
          | fresh x => rfl
        · rw [update_self]
          exact ⟨[], _, rfl, hlist.symm, rfl⟩

theorem Sound.leaveLoop {i size : Nat} {head_buf last_buf buf : Option Nat}
    {get : Option GetLocals} (hcall : s.calls i = .allocate size head_buf last_buf buf 0 get) :
    (s.setCall i (.finish head_buf buf get)).Sound lists := by
  obtain ⟨-, hhead, -⟩ : CallOk (.allocate size head_buf last_buf buf 0 get) _ := hcall ▸ h.calls i
  refine h.quiet ⟨rfl, fun j hj => update_of_ne hj ..⟩ rfl rfl rfl (fun part => ?_) ?_
  · rw [setCall_self, hcall]
    cases part with
    | made => rfl
    | temp =>
      cases last_buf with
      | some last => rfl
      | none => exact hhead rfl
    | fresh x =>
      cases buf with
      | none => rfl
      | some b => exact (if_neg (by omega)).symm
  · rw [setCall_self]
    trivial

theorem Sound.clear {i first buf : Nat} {tail : Option Nat}
    {get : Option GetLocals} (hcall : s.calls i = .clear first (some buf) tail get) :
    ((s.initialize_cbuf buf).setCall i (.clear first (s.next buf) (some buf) get)).Sound lists := by
  obtain ⟨pre, post, htemp, hbuf, -⟩ : CallOk (.clear first (some buf) tail get) _ :=
    hcall ▸ h.calls i
  refine h.quiet ⟨rfl, fun j hj => update_of_ne hj ..⟩ rfl rfl rfl (fun part => ?_) ?_
  · rw [setCall_self, hcall]
    cases part with
    | made | temp | fresh x => rfl
  · obtain ⟨rest, rfl⟩ := List.head?_eq_some_iff.mp hbuf.symm
    have hleads := h.chains.leads (.call i .temp)
    rw [htemp, leads_append_cons] at hleads
    rw [setCall_self]
    refine ⟨pre ++ [buf], rest, ?_, hleads.2.head, List.getLast?_concat.symm⟩
    rw [htemp, append_assoc, singleton_append]

theorem Sound.cleared {i first last : Nat} {get : Option GetLocals}
    (hcall : s.calls i = .clear first none (some last) get) :
    (s.setCall i (.freeAcquire first last get)).Sound lists := by
  obtain ⟨pre, post, htemp, hbuf, hlast⟩ : CallOk (.clear first none (some last) get) _ :=
    hcall ▸ h.calls i
  refine h.quiet ⟨rfl, fun j hj => update_of_ne hj ..⟩ rfl rfl rfl (fun part => ?_) ?_
  · rw [setCall_self, hcall]
    cases part with
    | made | temp | fresh x => rfl
  · rw [setCall_self]
    show (lists (.call i .temp)).getLast? = some last
    rw [htemp, List.head?_eq_none_iff.mp hbuf.symm, append_nil, hlast]

theorem Sound.hold (holder : Option Nat) {i : Nat} {call : PoolCall}
    (hhead : ∀ part, head call part = head (s.calls i) part)
    (hok : CallOk call (lists (.call i .temp))) :
    ({ s with holder := holder }.setCall i call).Sound lists := by
  refine h.quiet ⟨rfl, fun j hj => update_of_ne hj ..⟩ rfl rfl rfl (fun part => ?_) ?_
  · rw [setCall_self]
    exact hhead part
  · rw [setCall_self]
    exact hok

end

theorem trim_same (s : CbufPool) (g : GetLocals) : ∃ len, s.trim g = { s with len := len } := by
  unfold trim
  split
  · exact ⟨s.len, rfl⟩
  · exact ⟨_, rfl⟩

/-- `cbuf_get_chain` goes on in its loop, or returns the chain. -/
theorem Sound.getChain (h : s.Sound lists) {i k : Nat} {fails : Bool} {g : GetLocals}
    (hcall : s.calls i = .take g) (hs' : s.go i fails k = some s') : ∃ lists, Sound s' lists := by
  simp only [go, hcall] at hs'
  split at hs'
  · split at hs'
    · cases hs'
      refine ⟨lists, h.hold _ (fun part => ?_) ?_⟩
      · rw [hcall]
        cases part with
        | made | temp | fresh x => rfl
      · have hnil : lists (.call i .temp) = [] := h.lists_nil (by
          show head (s.calls i) .temp = none
          rw [hcall]
          rfl)
        rw [hnil]
        exact ⟨rfl, fun _ => rfl, fun hpos => absurd hpos (Nat.lt_irrefl 0)⟩
    · rename_i temp hfree
      cases hs'
      exact h.take hcall hfree rfl
  · split at hs'
    · rename_i hlive
      cases hs'
      obtain ⟨len, htrim⟩ := trim_same { s with holder := none } g
      rw [htrim]
      refine h.hand .made (.live k) rfl rfl rfl rfl (.inr ⟨k, rfl⟩) nofun hlive rfl ?_
        (fun n => ?_) (fun part hpart _ => ?_) trivial
      · rw [hcall]
        exact update_self ..
      · by_cases hn : n = k
        · exact .inl (by rw [hn])
        · exact .inr (update_of_ne hn ..)
      · rw [hcall]
        cases part with
        | made => exact absurd rfl hpart
        | temp | fresh x => rfl
    · cases hs'

/-! ## All runs -/

/-- The cbuf whose pointer a thread clears when it goes on. -/
def behind : PoolCall → Option Nat
  | .finish _ buf _ => buf
  | _ => none

/-- The pointer that is cleared is a null pointer already. -/
def Safe (s : CbufPool) : PoolEvent → Prop
  | .go i _ _ => (behind (s.calls i)).bind s.next = none
  | _ => True

instance (s : CbufPool) : DecidablePred s.Safe
  | .cbuf_get_chain _ _ => inferInstanceAs (Decidable True)
  | .cbuf_free_chain _ _ => inferInstanceAs (Decidable True)
  | .allocate_cbuf_mem _ _ => inferInstanceAs (Decidable True)
  | .go i _ _ => inferInstanceAs (Decidable ((behind (s.calls i)).bind s.next = none))

theorem setNext_same {buf : Nat} (h : s.next buf = none) : s.setNext buf none = s := by
  unfold setNext
  rw [update_eq_self_iff.mpr h.symm]

theorem Sound.go (h : s.Sound lists) {i k : Nat} {fails : Bool} (hsafe : s.Safe (.go i fails k))
    (hs' : s.go i fails k = some s') : ∃ lists, Sound s' lists := by
  have hgo := hs'
  unfold CbufPool.go at hs'
  generalize hcall : s.calls i = call at hs'
  cases call with
  | idle =>
    cases hs'
  | acquire g =>
    dsimp only at hs'
    split at hs'
    · cases hs'
      refine ⟨lists, h.hold _ (fun part => ?_) trivial⟩
      rw [hcall]
      cases part with
      | made => rfl
      | temp => rfl
      | fresh x => rfl
    · cases hs'
  | take g => exact h.getChain hcall hgo
  | allocate size head_buf last_buf buf left get =>
    cases left with
    | zero =>
      dsimp only at hs'
      split at hs'
      · split at hs'
        · rename_i s₁ halloc
          cases hs'
          rcases cbuf_alloc_spec halloc with ⟨-, rfl⟩ | ⟨start, count, hsome, -⟩
          · exact ⟨lists, h.leaveLoop hcall⟩
          · cases hsome
        · rename_i start found_size s₁ halloc
          cases hs'
          rcases cbuf_alloc_spec halloc with ⟨hnone, -⟩ | ⟨start', count, hsome, hpos, rfl, hclear⟩
          · cases hnone
          · cases hsome
            rw [Nat.mul_div_cancel_left count (by decide)]
            exact h.allocate hcall hpos hclear
      · cases hs'
        exact ⟨lists, h.leaveLoop hcall⟩
    | succ left =>
      obtain ⟨b, rfl, rfl⟩ := Option.map_eq_some_iff.mp hs'
      exact h.link hcall
  | finish head_buf buf get =>
    dsimp only at hs'
    have hstate : (buf.map fun buf => s.setNext buf none).getD s = s := by
      cases buf with
      | none => rfl
      | some b =>
        have hnext : (behind (s.calls i)).bind s.next = none := hsafe
        rw [hcall] at hnext
        exact setNext_same hnext
    rw [hstate] at hs'
    exact h.returnMem hcall hs'
  | clear first buf tail get =>
    cases buf with
    | some b =>
      cases hs'
      exact ⟨lists, h.clear hcall⟩
    | none =>
      obtain ⟨last, rfl, rfl⟩ := Option.map_eq_some_iff.mp hs'
      exact ⟨lists, h.cleared hcall⟩
  | freeAcquire first last get =>
    dsimp only at hs'
    split at hs'
    · cases hs'
      have hlast : CallOk (.freeAcquire first last get) (lists (.call i .temp)) := hcall ▸ h.calls i
      refine ⟨lists, h.hold _ (fun part => ?_) hlast⟩
      rw [hcall]
      cases part with
      | made => rfl
      | temp => rfl
      | fresh x => rfl
    · cases hs'
  | freeLink first last get =>
    cases hs'
    exact h.freeLink hcall

/-- A caller's chain is freed. -/
theorem Sound.freeChain (h : s.Sound lists) {i : Nat} (k : Nat) (hcall : s.calls i = .idle) :
    ∃ lists, Sound ((s.keep k none).setCall i (startFree (s.live k) none)) lists := by
  cases hlive : s.live k with
  | none =>
    have hkeep : s.keep k none = s := by
      unfold keep
      rw [update_eq_self_iff.mpr hlive.symm]
    rw [hkeep]
    refine ⟨lists, h.hold s.holder (fun part => ?_) trivial⟩
    rw [hcall]
    rfl
  | some first =>
    have hhead := (h.chains.leads (.live k)).head
    refine ⟨_, @Sound.move s ((s.keep k none).setCall i (startFree (some first) none)) lists h i
      ⟨rfl, fun j hj => update_of_ne hj ..⟩ (.live k) (.call i .temp) nofun ?_ rfl ?_ ?_ ?_
      (.inr (.inr rfl)) (fun n => ?_) (fun part => ?_) ?_ nofun⟩
    · rintro j part (heq | heq)
      · cases heq
      · exact (Owner.call.inj heq).1.symm
    · show head (s.calls i) .temp = none
      rw [hcall]
      rfl
    · exact update_self ..
    · show head ((setCall _ i _).calls i) .temp = s.live k
      rw [setCall_self, hlive]
      rfl
    · by_cases hn : n = k
      · exact .inl (by rw [hn])
      · exact .inr (.inr (update_of_ne hn ..))
    · rw [setCall_self, hcall]
      cases part with
      | made => exact .inr (.inr rfl)
      | temp => exact .inr (.inl rfl)
      | fresh x => exact .inr (.inr rfl)
    · rw [setCall_self, update_self]
      exact ⟨[], lists (.live k), rfl, hlive.symm.trans hhead, rfl⟩

theorem Sound.step {e : PoolEvent} (h : s.Sound lists) (hsafe : s.Safe e)
    (hs' : s.step e = some s') : ∃ lists, Sound s' lists := by
  cases e with
  | cbuf_get_chain i len =>
    simp only [CbufPool.step] at hs'
    split at hs'
    · rename_i hcall
      split at hs'
      · cases hs'
      · cases hs'
        refine ⟨lists, h.hold s.holder (fun part => ?_) trivial⟩
        rw [hcall]
        cases part with
        | made => rfl
        | temp => rfl
        | fresh x => rfl
    · cases hs'
  | cbuf_free_chain i k =>
    simp only [CbufPool.step] at hs'
    split at hs'
    · rename_i hcall
      cases hs'
      exact h.freeChain k hcall
    · cases hs'
  | allocate_cbuf_mem i size =>
    simp only [CbufPool.step] at hs'
    split at hs'
    · rename_i hcall
      cases hs'
      have hnil : lists (.call i .temp) = [] := h.lists_nil (by
        show head (s.calls i) .temp = none
        rw [hcall]
        rfl)
      refine ⟨lists, h.hold s.holder (fun part => ?_) ?_⟩
      · rw [hcall]
        cases part with
        | made => rfl
        | temp => rfl
        | fresh x => rfl
      · rw [hnil]
        exact ⟨rfl, fun _ => rfl, fun hpos => absurd hpos (Nat.lt_irrefl 0)⟩
    · cases hs'
  | go i fails k => exact h.go hsafe hs'

theorem sound_init (h : s.Init) : s.Sound fun _ => [] := by
  obtain ⟨hnext, hbitmap, hfree, -, hlive, hcalls⟩ := h
  refine ⟨⟨fun o => ?_, fun _ => nodup_nil, fun _ _ _ _ => nofun⟩, fun buf => ?_,
    fun buf _ => hnext buf, fun i => ?_, fun _ _ => Nat.zero_le 1⟩
  · cases o with
    | free => exact hfree
    | live k => exact hlive k
    | call i part =>
      show head (s.calls i) part = none
      rw [hcalls i]
      rfl
  · rw [hbitmap buf]
    constructor
    · exact nofun
    · rintro ⟨o, hmem⟩
      exact absurd hmem not_mem_nil
  · rw [hcalls i]
    trivial

theorem exists_sound (h : By Init Safe Step s) : ∃ lists, s.Sound lists := by
  apply h.invariant fun s => ∃ lists, s.Sound lists
  · intro s hinit
    exact ⟨_, sound_init hinit⟩
  · rintro s e s' ⟨lists, hsound⟩ hsafe hstep
    exact hsound.step hsafe hstep

/-- Every cbuf whose bit is set has one owner, and the others have none. -/
theorem cbufs_accounted (h : By Init Safe Step s) : s.Accounted := by
  obtain ⟨lists, hsound⟩ := exists_sound h
  exact ⟨lists, hsound.chains, hsound.cover⟩

/-- No memory has been allocated yet. -/
def boot : CbufPool where
  next _ := none
  len _ := 0
  bitmap _ := false
  free_list := none
  holder := none
  live _ := none
  calls _ := .idle

theorem init_boot : Init boot := ⟨fun _ => rfl, fun _ => rfl, rfl, rfl, fun _ => rfl, fun _ => rfl⟩

/-- A thread goes on `n` times. -/
def ahead (i k n : Nat) : List PoolEvent := List.replicate n (.go i false k)

/-- A thread allocates a page of cbufs, and a second one gets a chain of two cbufs, for which it
fills the free list. -/
theorem cbufs_accounted_get : ∃ s, By Init Safe Step s ∧ s.Accounted ∧ s.live 0 = some 0 ∧
    s.live 1 = some 3 ∧ s.free_list = some 4 := by
  have hexec : (exec (guarded Safe step)
      (.allocate_cbuf_mem 0 1 :: ahead 0 0 5 ++ .cbuf_get_chain 1 3000 :: ahead 1 1 76) boot).map
        (fun s => (s.live 0, s.live 1, s.free_list)) = some (some 0, some 3, some 4) := by
    decide +kernel
  obtain ⟨s, hs, hend⟩ := Option.map_eq_some_iff.mp hexec
  simp only [Prod.mk.injEq] at hend
  have hreach : By Init Safe Step s := By.exec (fun _ _ _ => guarded_some) _ (.init init_boot) hs
  exact ⟨s, hreach, cbufs_accounted hreach, hend⟩

/-! ## The pointer behind the last run -/

theorem startFree_head (p : Option Nat) (get : Option GetLocals) (part : Part) :
    head (startFree p get) part = none ∨ head (startFree p get) part = p ∨
      head (startFree p get) part = get.bind GetLocals.chain := by
  cases part with
  | fresh x =>
    refine .inl ?_
    cases p with
    | none => cases get <;> rfl
    | some first => rfl
  | temp =>
    cases p with
    | none => cases get <;> exact .inl rfl
    | some first => exact .inr (.inl rfl)
  | made =>
    refine .inr (.inr ?_)
    cases p with
    | none => cases get <;> rfl
    | some first => rfl

/-- No new list begins when `allocate_cbuf_mem` returns. -/
theorem returnMem_heads {i k : Nat} {head_buf buf : Option Nat} {get : Option GetLocals}
    (hcall : s.calls i = .finish head_buf buf get)
    (hs' : s.returnMem i k head_buf get = some s') (o : Owner) :
    s'.heads o = none ∨ ∃ o', s'.heads o = s.heads o' := by
  have hmade : s.heads (.call i .made) = get.bind GetLocals.chain := by
    show head (s.calls i) _ = _
    rw [hcall]
    rfl
  have htemp : s.heads (.call i .temp) = head_buf := by
    show head (s.calls i) _ = _
    rw [hcall]
    rfl
  unfold returnMem at hs'
  cases get with
  | none =>
    dsimp only at hs'
    split at hs'
    · cases hs'
      cases o with
      | free => exact .inr ⟨.free, rfl⟩
      | live n =>
        by_cases hn : n = k
        · subst hn
          exact .inr ⟨.call i .temp, htemp ▸ update_self ..⟩
        · exact .inr ⟨.live n, update_of_ne hn ..⟩
      | call j part =>
        by_cases hj : j = i
        · subst hj
          refine .inl ?_
          show head ((setCall _ j _).calls j) part = none
          rw [setCall_self]
          rfl
        · exact .inr ⟨.call j part, congrArg (head · part) (update_of_ne hj ..)⟩
    · cases hs'
  | some g =>
    -- the call goes on with one of the two lists, or with both
    have hcalls : ∃ p get', s' = s.setCall i (startFree p get') ∧
        (p = s.heads (.call i .temp) ∨ p = s.heads (.call i .made)) ∧
        (get' = none ∨ get' = some g) := by
      cases head_buf with
      | none => exact ⟨g.chain, none, (Option.some.inj hs').symm, .inr hmade.symm, .inl rfl⟩
      | some temp =>
        exact ⟨some temp, some g, (Option.some.inj hs').symm, .inl htemp.symm, .inr rfl⟩
    obtain ⟨p, get', rfl, hp, hget'⟩ := hcalls
    cases o with
    | free => exact .inr ⟨.free, rfl⟩
    | live n => exact .inr ⟨.live n, rfl⟩
    | call j part =>
      by_cases hj : j = i
      · subst hj
        have hself : (s.setCall j (startFree p get')).heads (.call j part) =
            head (startFree p get') part := congrArg (head · part) (setCall_self ..)
        have hchain : get'.bind GetLocals.chain = none ∨
            get'.bind GetLocals.chain = s.heads (.call j .made) := by
          rcases hget' with rfl | rfl
          · exact .inl rfl
          · exact .inr hmade.symm
        rw [hself]
        rcases startFree_head p get' part with hnone | hsame | hsame
        · exact .inl hnone
        · rcases hp with hp | hp
          · exact .inr ⟨_, hsame.trans hp⟩
          · exact .inr ⟨_, hsame.trans hp⟩
        · exact hchain.imp hsame.trans fun hmade => ⟨_, hsame.trans hmade⟩
      · exact .inr ⟨.call j part, congrArg (head · part) (update_of_ne hj ..)⟩

theorem returnMem_same {i k : Nat} {head_buf : Option Nat} {get : Option GetLocals}
    (hs' : s.returnMem i k head_buf get = some s') : s'.next = s.next ∧ s'.bitmap = s.bitmap := by
  unfold returnMem at hs'
  split at hs'
  · split at hs'
    · cases hs'
      exact ⟨rfl, rfl⟩
    · cases hs'
  · split at hs'
    · cases hs'
      exact ⟨rfl, rfl⟩
    · cases hs'
      exact ⟨rfl, rfl⟩

theorem finish_of_behind {call : PoolCall} {buf : Nat} (h : behind call = some buf) :
    ∃ head_buf get, call = .finish head_buf (some buf) get := by
  cases call with
  | finish head_buf b get =>
    obtain rfl : b = some buf := h
    exact ⟨head_buf, get, rfl⟩
  | _ => cases h

/-- The cbufs behind the pointer that is cleared are in no list. -/
theorem Sound.cut (h : s.Sound lists) {i k buf y : Nat} {fails : Bool}
    (hbehind : behind (s.calls i) = some buf) (hnext : s.next buf = some y)
    (hs' : s.go i fails k = some s') : ¬ s'.Accounted := by
  rintro ⟨lists', hchains', hcover'⟩
  obtain ⟨head_buf, get, hcall⟩ := finish_of_behind hbehind
  simp only [CbufPool.go, hcall] at hs'
  change (s.setNext buf none).returnMem i k head_buf get = some s' at hs'
  obtain ⟨hnext', hbitmap'⟩ := returnMem_same hs'
  -- a cbuf with a successor is in a list, and its successor behind it
  have hlisted : ∀ {z}, s.next z = some y → ∃ o, z ∈ lists o ∧ y ∈ (lists o).tail := by
    intro z hz
    have hbit : s.bitmap z = true := by
      by_contra hclear
      cases hz.symm.trans (h.fresh z (Bool.eq_false_iff.mpr hclear))
    obtain ⟨o, hmem⟩ := (h.cover z).mp hbit
    exact ⟨o, hmem, (h.chains.leads o).next_mem_tail hmem hz⟩
  obtain ⟨o, hbuf, hy⟩ := hlisted hnext
  have hone : ∀ {o'}, y ∈ lists o' → o' = o := fun hmem => by
    by_contra hne
    exact h.chains.apart _ _ hne y hmem (mem_of_mem_tail hy)
  have hbit : s'.bitmap y = true := by
    rw [hbitmap']
    exact (h.cover y).mpr ⟨o, mem_of_mem_tail hy⟩
  obtain ⟨o', hy'⟩ := (hcover' y).mp hbit
  rcases (hchains'.leads o').pred hy' with hhead | ⟨z, -, hz⟩
  · -- it is not the first one of a list
    rcases @returnMem_heads (s.setNext buf none) s' i k head_buf (some buf) get hcall hs' o' with
      hnone | ⟨o₁, hsame⟩
    · cases hnone.symm.trans hhead
    · have hfirst : s.heads o₁ = some y := hsame.symm.trans hhead
      obtain ⟨rest, hlist⟩ := List.head?_eq_some_iff.mp
        ((h.chains.leads o₁).head.symm.trans hfirst)
      have hone₁ : o₁ = o := hone (hlist ▸ mem_cons_self)
      subst hone₁
      have hnodup := h.chains.nodup o₁
      rw [hlist] at hnodup hy
      exact (nodup_cons.mp hnodup).1 hy
  · -- it was the successor of one cbuf only
    rw [hnext'] at hz
    by_cases hzbuf : z = buf
    · rw [hzbuf] at hz
      cases (update_self ..).symm.trans hz
    · have hzold : s.next z = some y := (update_of_ne hzbuf ..).symm.trans hz
      obtain ⟨o₁, hmem, htail⟩ := hlisted hzold
      obtain rfl := hone (mem_of_mem_tail htail)
      exact hzbuf ((h.chains.leads o₁).next_inj (h.chains.nodup o₁) hmem hbuf hzold hnext)

/-- The run of a second thread is behind that of the first one, which returns when the second thread
has linked it. -/
theorem cbufs_accounted_cut : ¬ ∀ s, By Init (fun _ _ => True) Step s → s.Accounted := by
  intro hall
  have hexec : (exec (guarded Safe step) (.allocate_cbuf_mem 0 1 :: ahead 0 0 4 ++
      .allocate_cbuf_mem 1 1 :: ahead 1 1 3) boot).map
        (fun s => (s.next 2, behind (s.calls 0), (s.go 0 false 0).isSome)) =
      some (some 3, some 2, true) := by decide +kernel
  obtain ⟨s, hs, hend⟩ := Option.map_eq_some_iff.mp hexec
  simp only [Prod.mk.injEq] at hend
  obtain ⟨hnext, hbehind, hgo⟩ := hend
  obtain ⟨s', hs'⟩ := Option.isSome_iff_exists.mp hgo
  have hreach : By Init Safe Step s := By.exec (fun _ _ _ => guarded_some) _ (.init init_boot) hs
  obtain ⟨lists, hsound⟩ := exists_sound hreach
  have hclaim := hall s' ((hreach.mono fun _ _ _ => trivial).step (a := .go 0 false 0) trivial hs')
  exact hsound.cut hbehind hnext hs' hclaim

end CbufPool

end Kernel

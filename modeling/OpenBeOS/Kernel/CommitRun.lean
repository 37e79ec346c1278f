import OpenBeOS.Kernel.Commit

/-! # Memory commitment is conserved

`Sound` is the invariant: what `max_commit` has lost since boot, the temporary caches have promised.
Every safe call keeps it.
-/

namespace Kernel

open Reachable Function List

namespace CommitState

variable {s s' : CommitState} {c : Nat} {x : CommitCache}

/-! ## The sum of the promises -/

@[simp] theorem setCache_self (s : CommitState) (c : Nat) (x : CommitCache) :
    (s.setCache c x).cache c = x := update_self ..

theorem setCache_of_ne {c' : Nat} (h : c' ≠ c) : (s.setCache c x).cache c' = s.cache c' :=
  update_of_ne h ..

theorem promised_erase (hc : c ∈ s.live) :
    promise (s.cache c) + ((s.live.erase c).map fun c => promise (s.cache c)).sum = s.promised :=
  sum_map_erase (fun c => promise (s.cache c)) hc

theorem sum_setCache {cs : List Nat} (hc : c ∉ cs) :
    (cs.map fun c' => promise ((s.setCache c x).cache c')).sum =
      (cs.map fun c' => promise (s.cache c')).sum := by
  refine congrArg List.sum (map_congr_left fun c' hc' => ?_)
  have hne : c' ≠ c := by
    rintro rfl
    exact hc hc'
  rw [setCache_of_ne hne]

theorem promised_setCache (hnodup : s.live.Nodup) (hc : c ∈ s.live) :
    (s.setCache c x).promised + promise (s.cache c) = s.promised + promise x := by
  have hbefore := promised_erase hc
  have hafter : promise ((s.setCache c x).cache c) + ((s.live.erase c).map fun c' =>
      promise ((s.setCache c x).cache c')).sum = (s.setCache c x).promised :=
    sum_map_erase (fun c' => promise ((s.setCache c x).cache c')) hc
  rw [sum_setCache hnodup.not_mem_erase, setCache_self] at hafter
  omega

/-! ## The invariant -/

structure Sound (s : CommitState) : Prop where
  nodup : s.live.Nodup
  alive : ∀ c, 1 ≤ (s.cache c).ref_count → c ∈ s.live
  temporary : ∀ c ∈ s.live, (s.cache c).temporary →
    (s.cache c).store = .anonymous ∧ (s.cache c).committed_size = 0 ∧ 0 ≤ (s.cache c).virtual_size
  balance : s.max_commit + s.promised = s.boot_commit
  low : -2 ^ 31 ≤ s.max_commit
  high : s.boot_commit < 2 ^ 31

section

variable (h : s.Sound) (hc : c ∈ s.live)
include h hc

theorem Sound.promise_nonneg : 0 ≤ promise (s.cache c) := by
  unfold promise
  split
  · rename_i htemp
    exact (h.temporary c hc htemp).2.2
  · exact Int.le_refl 0

theorem Sound.promise_le : promise (s.cache c) ≤ s.promised := by
  have hsum := promised_erase hc
  have hrest : 0 ≤ ((s.live.erase c).map fun c => promise (s.cache c)).sum := by
    refine sum_nonneg fun y hy => ?_
    obtain ⟨c', hc', rfl⟩ := mem_map.mp hy
    exact h.promise_nonneg (mem_of_mem_erase hc')
  omega

theorem Sound.setCache (hpromise : promise x = promise (s.cache c))
    (htemp : x.temporary → x.store = .anonymous ∧ x.committed_size = 0 ∧ 0 ≤ x.virtual_size) :
    (s.setCache c x).Sound := by
  refine ⟨h.nodup, fun c' href => ?_, fun c' hc' => ?_, ?_, h.low, h.high⟩
  · by_cases hne : c' = c
    · exact hne ▸ hc
    · rw [setCache_of_ne hne] at href
      exact h.alive c' href
  · by_cases hne : c' = c
    · rw [hne, setCache_self]
      exact htemp
    · rw [setCache_of_ne hne]
      exact h.temporary c' hc'
  · have hsum := promised_setCache (x := x) h.nodup hc
    rw [hpromise] at hsum
    have hbalance := h.balance
    show s.max_commit + (s.setCache c x).promised = s.boot_commit
    omega

theorem Sound.setRef (ref_count : Int) :
    (s.setCache c { s.cache c with ref_count }).Sound :=
  h.setCache hc rfl (h.temporary c hc)

theorem Sound.acquire : (s.vm_cache_acquire_ref c).Sound :=
  h.setRef hc _

end

theorem Sound.create (h : s.Sound) (hc : c ∉ s.live) (store : vm_store) (source : Option Nat) :
    (s.createCache c store source).Sound := by
  have hother : ∀ c', c' ∈ s.live → (s.createCache c store source).cache c' = s.cache c' := by
    intro c' hc'
    refine setCache_of_ne ?_
    rintro rfl
    exact hc hc'
  have hself : (s.createCache c store source).cache c =
      ⟨store, 0, 0, store.temporary, source, 0⟩ := setCache_self ..
  refine ⟨nodup_cons.mpr ⟨hc, h.nodup⟩, fun c' href => ?_, fun c' hc' htemp => ?_, ?_, h.low,
    h.high⟩
  · by_cases hne : c' = c
    · exact hne ▸ mem_cons_self ..
    · rw [show (s.createCache c store source).cache c' = s.cache c' from setCache_of_ne hne] at href
      exact mem_cons_of_mem _ (h.alive c' href)
  · rcases mem_cons.mp hc' with rfl | hc'
    · rw [hself] at htemp ⊢
      cases store with
      | anonymous => exact ⟨rfl, rfl, Int.le_refl 0⟩
      | _ => cases htemp
    · rw [hother c' hc'] at htemp ⊢
      exact h.temporary c' hc' htemp
  · have hsum : (s.createCache c store source).promised = 0 + s.promised := by
      have hzero : promise ((s.createCache c store source).cache c) = 0 := by
        rw [hself]
        exact ite_self 0
      have hlist : (s.createCache c store source).promised = (promise
          ((s.createCache c store source).cache c) :: s.live.map fun c' =>
            promise ((s.createCache c store source).cache c')).sum := rfl
      rw [hlist, sum_cons, hzero]
      refine congrArg (0 + ·) (congrArg List.sum (map_congr_left fun c' hc' => ?_))
      rw [hother c' hc']
    have hbalance := h.balance
    show s.max_commit + (s.createCache c store source).promised = s.boot_commit
    omega

/-! ## Releasing a reference -/

/-- A cache that gives back what it has promised is freed. -/
theorem Sound.destroy (h : s.Sound) (hc : c ∈ s.live) (href : (s.cache c).ref_count < 1)
    (hback : (s.cache c).virtual_size - (s.cache c).committed_size = promise (s.cache c)) :
    (s.destroy c).Sound := by
  have hsum := promised_erase hc
  have hnonneg := h.promise_nonneg hc
  have hle := h.promise_le hc
  have hbalance := h.balance
  have hlow := h.low
  have hhigh := h.high
  have hmax : (s.destroy c).max_commit = s.max_commit + promise (s.cache c) := by
    show toInt (s.max_commit + ((s.cache c).virtual_size - (s.cache c).committed_size) % 2 ^ 32) = _
    rw [hback, toInt, show (2 : Int) ^ 32 = ((2 ^ 32 : Nat) : Int) from rfl, Int.add_emod_bmod]
    exact toInt_of_range (by omega) (by omega)
  refine ⟨h.nodup.erase c, fun c' href' => ?_, fun c' hc' => ?_, ?_, ?_, h.high⟩
  · have hne : c' ≠ c := by
      rintro rfl
      exact absurd href' (by show ¬ 1 ≤ (s.cache c').ref_count; omega)
    exact (mem_erase_of_ne hne).mpr (h.alive c' href')
  · exact h.temporary c' (mem_of_mem_erase hc')
  · have hpromised : (s.destroy c).promised =
        ((s.live.erase c).map fun c => promise (s.cache c)).sum := rfl
    have hboot : (s.destroy c).boot_commit = s.boot_commit := rfl
    omega
  · omega

/-- What the caches down the chain must meet. -/
def GivesBack (x : CommitCache) : Prop := x.temporary = false → x.virtual_size = x.committed_size

theorem Sound.gives_back (h : s.Sound) (hc : c ∈ s.live) (hback : GivesBack (s.cache c)) :
    (s.cache c).virtual_size - (s.cache c).committed_size = promise (s.cache c) := by
  unfold promise
  cases htemp : (s.cache c).temporary with
  | true =>
    have hzero := (h.temporary c hc htemp).2.1
    rw [if_pos rfl]
    omega
  | false =>
    have hsame := hback htemp
    rw [if_neg nofun]
    omega

/-- `s` is a state of the loop begun in `s₀`: the caches with one reference have not changed. -/
theorem releaseLoop_sound : ∀ (fuel : Nat) {s₀ s s' : CommitState} {c : Nat}, s.Sound →
    (∀ x, (s.cache x).ref_count = 1 → s.cache x = s₀.cache x) →
    (∀ x ∈ doomed fuel s₀ c, GivesBack (s₀.cache x)) →
    releaseLoop fuel s c = some s' → s'.Sound
  | 0, _, _, _, _, _, _, _, hstep => absurd hstep nofun
  | fuel + 1, s₀, s, s', c, h, hsame, hback, hstep => by
    unfold releaseLoop at hstep
    by_cases href : (s.cache c).ref_count = 1
    · rw [if_pos href] at hstep
      have hc : c ∈ s.live := h.alive c (by omega)
      have hcache := hsame c href
      have href₀ : (s₀.cache c).ref_count = 1 := hcache ▸ href
      rw [doomed, if_pos href₀] at hback
      have hdrop : (s.dropRef c).Sound := h.setRef hc _
      have hself : (s.dropRef c).cache c = { s.cache c with ref_count := (s.cache c).ref_count - 1 } :=
        setCache_self ..
      have hdestroyed : ((s.dropRef c).destroy c).Sound := by
        refine hdrop.destroy hc (by rw [hself]; show (s.cache c).ref_count - 1 < 1; omega) ?_
        refine hdrop.gives_back hc ?_
        have hback' := hback c (mem_cons_self ..)
        rw [← hcache] at hback'
        rw [hself]
        exact hback'
      have hsame' : ∀ x, (((s.dropRef c).destroy c).cache x).ref_count = 1 →
          ((s.dropRef c).destroy c).cache x = s₀.cache x := by
        intro x hx
        show (s.dropRef c).cache x = s₀.cache x
        change ((s.dropRef c).cache x).ref_count = 1 at hx
        have hne : x ≠ c := by
          rintro rfl
          rw [hself] at hx
          have hx' : (s.cache x).ref_count - 1 = 1 := hx
          omega
        rw [dropRef, setCache_of_ne hne] at hx ⊢
        exact hsame x hx
      cases hsource : (s.cache c).source with
      | none =>
        simp only [hsource] at hstep
        exact Option.some.inj hstep ▸ hdestroyed
      | some source =>
        simp only [hsource] at hstep
        rw [hcache] at hsource
        rw [hsource] at hback
        exact releaseLoop_sound fuel hdestroyed hsame'
          (fun x hx => hback x (mem_cons_of_mem _ hx)) hstep
    · rw [if_neg href] at hstep
      cases hstep
      by_cases hc : c ∈ s.live
      · exact h.setRef hc _
      · -- a reference that no one holds
        have hother : ∀ x ∈ s.live, (s.dropRef c).cache x = s.cache x := by
          intro x hx
          refine setCache_of_ne ?_
          rintro rfl
          exact hc hx
        refine ⟨h.nodup, fun x hx => ?_, fun x hx => ?_, ?_, h.low, h.high⟩
        · by_cases hne : x = c
          · subst hne
            refine absurd (h.alive x ?_) hc
            rw [dropRef, setCache_self] at hx
            have hx' : 1 ≤ (s.cache x).ref_count - 1 := hx
            omega
          · rw [dropRef, setCache_of_ne hne] at hx
            exact h.alive x hx
        · rw [hother x hx]
          exact h.temporary x hx
        · have hsum : (s.dropRef c).promised = s.promised := sum_setCache hc
          have hbalance := h.balance
          show s.max_commit + (s.dropRef c).promised = s.boot_commit
          omega

theorem release_sound (h : s.Sound)
    (hback : ∀ x ∈ doomed (s.live.length + 1) s c, GivesBack (s.cache x))
    (hstep : s.vm_cache_release_ref c = some s') : s'.Sound :=
  releaseLoop_sound _ h (fun _ _ => rfl) hback hstep

/-! ## Mapping a store -/

/-- What the charge leaves to a cache. -/
structure SameRefs (s s' : CommitState) : Prop where
  live : s'.live = s.live
  ref_count : ∀ c, (s'.cache c).ref_count = (s.cache c).ref_count
  temporary : ∀ c, (s'.cache c).temporary = (s.cache c).temporary
  source : ∀ c, (s'.cache c).source = (s.cache c).source

theorem sameRefs_setCache (href : x.ref_count = (s.cache c).ref_count)
    (htemp : x.temporary = (s.cache c).temporary) (hsource : x.source = (s.cache c).source) :
    s.SameRefs (s.setCache c x) := by
  refine ⟨rfl, fun c' => ?_, fun c' => ?_, fun c' => ?_⟩
  · by_cases hne : c' = c
    · rw [hne, setCache_self, href]
    · rw [setCache_of_ne hne]
  · by_cases hne : c' = c
    · rw [hne, setCache_self, htemp]
    · rw [setCache_of_ne hne]
  · by_cases hne : c' = c
    · rw [hne, setCache_self, hsource]
    · rw [setCache_of_ne hne]

theorem charge_temporary {stop virtual_size ref_count : Int} {source : Option Nat}
    (hx : s.cache c = ⟨.anonymous, 0, virtual_size, true, source, ref_count⟩) (hpos : 0 < stop) :
    s.charge c stop =
      if s.max_commit < stop then (some .ERR_VM_WOULD_OVERCOMMIT, s)
      else
        (none, { s with max_commit := toInt (s.max_commit + (0 - (stop - virtual_size)))
          }.setCache c ⟨.anonymous, 0, stop, true, source, ref_count⟩) := by
  have hsame : s.setCache c ⟨.anonymous, 0, virtual_size, true, source, ref_count⟩ = s := by
    rw [← hx, setCache, update_eq_self]
  unfold charge
  rw [hx]
  simp only [vm_store.commit, hsame, if_pos hpos, if_true, Int.sub_zero, Int.add_zero]

/-- A temporary cache promises up to the new end, be that more or less than before. -/
theorem Sound.promiseMore (h : s.Sound) (hc : c ∈ s.live) {stop virtual_size ref_count : Int}
    {source : Option Nat} (hx : s.cache c = ⟨.anonymous, 0, virtual_size, true, source, ref_count⟩)
    (hpos : 0 < stop) (hroom : stop ≤ s.max_commit) :
    CommitState.Sound ({ s with max_commit := toInt (s.max_commit + (0 - (stop - virtual_size)))
      }.setCache c ⟨.anonymous, 0, stop, true, source, ref_count⟩) := by
  have hbalance := h.balance
  have hle := h.promise_le hc
  have hnonneg := h.promise_nonneg hc
  have hhigh := h.high
  have hpromise : promise (s.cache c) = virtual_size := by
    rw [hx]
    rfl
  have hmax : toInt (s.max_commit + (0 - (stop - virtual_size))) =
      s.max_commit + (0 - (stop - virtual_size)) :=
    toInt_of_range (by omega) (by omega)
  have hsum := promised_setCache (x := ⟨.anonymous, 0, stop, true, source, ref_count⟩) h.nodup hc
  have hnew : promise ⟨.anonymous, 0, stop, true, source, ref_count⟩ = stop := rfl
  rw [hmax]
  refine ⟨h.nodup, fun c' href => ?_, fun c' hc' => ?_, ?_, ?_, h.high⟩
  · by_cases hne : c' = c
    · exact hne ▸ hc
    · rw [setCache_of_ne hne] at href
      exact h.alive c' href
  · by_cases hne : c' = c
    · rw [hne, setCache_self]
      exact fun _ => ⟨rfl, rfl, Int.le_of_lt hpos⟩
    · rw [setCache_of_ne hne]
      exact h.temporary c' hc'
  · show s.max_commit + (0 - (stop - virtual_size)) +
      (s.setCache c ⟨.anonymous, 0, stop, true, source, ref_count⟩).promised = s.boot_commit
    omega
  · show -2 ^ 31 ≤ s.max_commit + (0 - (stop - virtual_size))
    omega

/-- The charge keeps the invariant; if it is refused, the mapping asked for more than `max_commit`. -/
theorem charge_spec (h : s.Sound) (hc : c ∈ s.live) (stop : Int) :
    (s.charge c stop).2.Sound ∧ s.SameRefs (s.charge c stop).2 ∧
      ((s.charge c stop).1 = some .ERR_VM_WOULD_OVERCOMMIT →
        (s.cache c).temporary ∧ s.max_commit < stop) := by
  have hrefl : s.SameRefs s := ⟨rfl, fun _ => rfl, fun _ => rfl, fun _ => rfl⟩
  cases hx : s.cache c with
  | mk store committed_size virtual_size temporary source ref_count =>
    cases temporary with
    | true =>
      obtain ⟨hstore, hcommitted, -⟩ := h.temporary c hc (by rw [hx])
      rw [hx] at hstore hcommitted
      obtain rfl : store = .anonymous := hstore
      obtain rfl : committed_size = 0 := hcommitted
      by_cases hpos : 0 < stop
      · rw [charge_temporary hx hpos]
        by_cases hroom : s.max_commit < stop
        · rw [if_pos hroom]
          exact ⟨h, hrefl, fun _ => ⟨rfl, hroom⟩⟩
        · rw [if_neg hroom]
          refine ⟨h.promiseMore hc hx hpos (Int.not_lt.mp hroom), ?_, nofun⟩
          have hrefs : s.SameRefs (s.setCache c ⟨.anonymous, 0, stop, true, source, ref_count⟩) :=
            sameRefs_setCache (by rw [hx]) (by rw [hx]) (by rw [hx])
          exact ⟨hrefs.live, hrefs.ref_count, hrefs.temporary, hrefs.source⟩
      · have hcharge : s.charge c stop = (none, s) := by
          unfold charge
          rw [hx]
          exact if_neg hpos
        rw [hcharge]
        exact ⟨h, hrefl, nofun⟩
    | false =>
      have hset : ∀ committed_size, (s.setCache c ⟨store, committed_size, virtual_size, false, source,
          ref_count⟩).Sound ∧ s.SameRefs (s.setCache c ⟨store, committed_size, virtual_size, false,
            source, ref_count⟩) := by
        intro committed_size
        refine ⟨h.setCache hc ?_ nofun, sameRefs_setCache ?_ ?_ ?_⟩
        · rw [hx]
          rfl
        · rw [hx]
        · rw [hx]
        · rw [hx]
      unfold charge
      rw [hx]
      simp only [Bool.false_eq_true, if_false]
      split
      · split
        · exact ⟨(hset _).1, (hset _).2, nofun⟩
        · exact ⟨(hset _).1, (hset _).2, nofun⟩
      · exact ⟨h, hrefl, nofun⟩

theorem doomed_of_two {fuel : Nat} (href : (s.cache c).ref_count ≠ 1) : doomed fuel s c = [] := by
  cases fuel with
  | zero => rfl
  | succ fuel => exact if_neg href

/-- Acquiring and releasing a cache that only refers to a cache in use frees no other one. -/
theorem acquireRelease_sound (h : s.Sound) (hc : c ∈ s.live)
    (hkeep : 1 ≤ (s.cache c).ref_count ∨ (s.cache c).temporary ∧
      ∀ source, (s.cache c).source = some source → source ≠ c ∧ 2 ≤ (s.cache source).ref_count)
    (hstep : (s.vm_cache_acquire_ref c).vm_cache_release_ref c = some s') : s'.Sound := by
  have hself : (s.vm_cache_acquire_ref c).cache c =
      { s.cache c with ref_count := (s.cache c).ref_count + 1 } := setCache_self ..
  refine release_sound (h.acquire hc) ?_ hstep
  rcases hkeep with hkept | ⟨htemp, hsource⟩
  · rw [doomed_of_two]
    · exact fun x hx => absurd hx nofun
    · rw [hself]
      show (s.cache c).ref_count + 1 ≠ 1
      omega
  · intro x hx
    have hx' : x = c := by
      rw [doomed] at hx
      split at hx
      · rcases mem_cons.mp hx with rfl | hx
        · rfl
        · rw [hself] at hx
          cases hs : (s.cache c).source with
          | none =>
            simp only [hs] at hx
            cases hx
          | some source =>
            simp only [hs] at hx
            obtain ⟨hne, htwo⟩ := hsource source hs
            rw [doomed_of_two] at hx
            · cases hx
            · rw [vm_cache_acquire_ref, setCache_of_ne hne]
              omega
      · cases hx
    rw [hx', hself]
    intro hfalse
    rw [show (s.cache c).temporary = true from htemp] at hfalse
    cases hfalse

theorem mapCache_spec (h : s.Sound) (hc : c ∈ s.live) {stop : Int} {isPrivate : Bool}
    {inserted : Option InsertError}
    (hkeep : 1 ≤ (s.cache c).ref_count ∨ (s.cache c).temporary ∧
      ∀ source, (s.cache c).source = some source → source ≠ c ∧ 2 ≤ (s.cache source).ref_count)
    {err : Option MapError} (hstep : s.mapCache c stop isPrivate inserted = some (err, s')) :
    s'.Sound ∧ (err = some .ERR_VM_WOULD_OVERCOMMIT →
      (s.cache c).temporary ∧ s.max_commit < stop) := by
  obtain ⟨hsound, hrefs, hrefused⟩ := charge_spec h hc stop
  have hc' : c ∈ (s.charge c stop).2.live := by
    rw [hrefs.live]
    exact hc
  have hkeep' : 1 ≤ ((s.charge c stop).2.cache c).ref_count ∨
      ((s.charge c stop).2.cache c).temporary ∧
        ∀ source, ((s.charge c stop).2.cache c).source = some source →
          source ≠ c ∧ 2 ≤ ((s.charge c stop).2.cache source).ref_count := by
    simp only [hrefs.ref_count, hrefs.temporary, hrefs.source]
    exact hkeep
  unfold mapCache at hstep
  cases hcharge : s.charge c stop with
  | mk refused s₁ =>
    rw [hcharge] at hstep hsound hc' hkeep' hrefused
    cases refused with
    | some err₁ =>
      simp only at hstep
      split at hstep
      · obtain ⟨s₂, hs₂, heq⟩ := Option.map_eq_some_iff.mp hstep
        cases heq
        exact ⟨acquireRelease_sound hsound hc' hkeep' hs₂, hrefused⟩
      · cases hstep
        exact ⟨hsound, hrefused⟩
    | none =>
      cases inserted with
      | some err₁ =>
        obtain ⟨s₂, hs₂, heq⟩ := Option.map_eq_some_iff.mp hstep
        cases heq
        exact ⟨acquireRelease_sound hsound hc' hkeep' hs₂, nofun⟩
      | none =>
        cases hstep
        exact ⟨hsound.acquire hc', nofun⟩

theorem map_spec (h : s.Sound) {call : MapCall} (hlegal : call.Legal s) {err : Option MapError}
    (hstep : s.map_backing_store call = some (err, s')) :
    s'.Sound ∧ (err = some .ERR_VM_WOULD_OVERCOMMIT → s.max_commit < call.stop ∧
      (call.nu_cache = none → (s.cache call.cache).temporary)) := by
  obtain ⟨href, hnew⟩ := hlegal
  have hc := h.alive _ href
  unfold map_backing_store at hstep
  split at hstep
  · cases hstep
    exact ⟨h, nofun⟩
  · cases hnu : call.nu_cache with
    | none =>
      rw [hnu] at hstep
      obtain ⟨hsound, hrefused⟩ := mapCache_spec h hc (Or.inl href) hstep
      exact ⟨hsound, fun herr => ⟨(hrefused herr).2, fun _ => (hrefused herr).1⟩⟩
    | some nu_cache =>
      rw [hnu] at hstep
      have hout := hnew nu_cache hnu
      have hne : call.cache ≠ nu_cache := by
        rintro rfl
        exact hout hc
      have hcreated := h.create hout .anonymous (some call.cache)
      have hacquired := hcreated.acquire (mem_cons_of_mem _ hc)
      have hself : ((s.createCache nu_cache .anonymous (some call.cache)).vm_cache_acquire_ref
          call.cache).cache nu_cache = ⟨.anonymous, 0, 0, true, some call.cache, 0⟩ :=
        (setCache_of_ne (Ne.symm hne)).trans (setCache_self ..)
      have hsource : ((s.createCache nu_cache .anonymous (some call.cache)).vm_cache_acquire_ref
          call.cache).cache call.cache =
            { s.cache call.cache with ref_count := (s.cache call.cache).ref_count + 1 } := by
        rw [vm_cache_acquire_ref, setCache_self, createCache, setCache_of_ne hne]
      have htwo : 2 ≤ (((s.createCache nu_cache .anonymous (some call.cache)).vm_cache_acquire_ref
          call.cache).cache call.cache).ref_count := by
        rw [hsource]
        show 2 ≤ (s.cache call.cache).ref_count + 1
        omega
      obtain ⟨hsound, hrefused⟩ := mapCache_spec hacquired (mem_cons_self ..)
        (Or.inr ⟨by rw [hself], fun source hs => by
          rw [hself] at hs
          exact Option.some.inj hs ▸ ⟨hne, htwo⟩⟩) hstep
      exact ⟨hsound, fun herr => ⟨(hrefused herr).2, nofun⟩⟩

/-! ## Every run -/

theorem step_sound (h : s.Sound) {call : CommitCall} (hsafe : s.Safe call)
    (hstep : s.Step call s') : s'.Sound := by
  unfold Step at hstep
  cases call
  all_goals simp only [step] at hstep
  case create c store =>
    split at hstep
    · cases hstep
    · rename_i hc
      exact Option.some.inj hstep ▸ h.create hc store none
  case acquire_ref c =>
    split at hstep
    · rename_i hc
      exact Option.some.inj hstep ▸ h.acquire hc
    · cases hstep
  case release_ref c =>
    split at hstep
    · exact release_sound h hsafe hstep
    · cases hstep
  case map_backing_store call =>
    split at hstep
    · rename_i hlegal
      obtain ⟨⟨err, s₁⟩, hmap, rfl⟩ := Option.map_eq_some_iff.mp hstep
      exact (map_spec h hlegal hmap).1
    · cases hstep
  case resize_region c newSize regions =>
    split at hstep
    · rename_i href
      cases hstep
      have hc := h.alive c href
      unfold vm_resize_region
      split
      · rename_i hcan
        refine h.setCache hc ?_ fun htemp => ?_
        · unfold promise
          split
          · rename_i htemp
            exact hsafe htemp hcan
          · rfl
        · obtain ⟨hstore, hcommitted, -⟩ := h.temporary c hc htemp
          exact ⟨hstore, hcommitted, Int.natCast_nonneg _⟩
      · exact h
    · cases hstep

theorem Init.sound (h : s.Init) : s.Sound := by
  obtain ⟨hlive, href, hmax, hlow, hhigh⟩ := h
  refine ⟨?_, fun c hc => ?_, ?_, ?_, ?_, hhigh⟩
  · rw [hlive]
    exact nodup_nil
  · rw [href] at hc
    exact absurd hc (by decide)
  · rw [hlive]
    exact nofun
  · rw [promised, hlive, hmax]
    exact Int.add_zero _
  · rw [hmax]
    exact hlow

theorem run_sound (h : By Init Safe Step s) : s.Sound :=
  h.invariant Sound (fun _ hinit => hinit.sound) fun _ _ _ hs hsafe hstep => step_sound hs hsafe hstep

end CommitState

open CommitState in
/-- In every run of safe calls, what `max_commit` has lost since boot is what the temporary caches
have promised, and a safe mapping is refused only if it would make `max_commit` negative. -/
theorem memory_commitment_conserved {s : CommitState} (h : By Init Safe Step s) :
    s.max_commit + s.promised = s.boot_commit ∧ (s.live = [] → s.max_commit = s.boot_commit) ∧
      ∀ (call : MapCall) (s' : CommitState), call.Legal s → s.Safe (.map_backing_store call) →
        s.map_backing_store call = some (some .ERR_VM_WOULD_OVERCOMMIT, s') →
        s.max_commit - (call.stop - call.promised s) < 0 := by
  have hsound := run_sound h
  refine ⟨hsound.balance, fun hlive => ?_, fun call s' hlegal hsafe hrefused => ?_⟩
  · have hbalance := hsound.balance
    rw [promised, hlive] at hbalance
    exact (Int.add_zero _).symm.trans hbalance
  · obtain ⟨hless, htemp⟩ := (map_spec hsound hlegal hrefused).2 rfl
    unfold MapCall.promised
    split
    · omega
    · rename_i hnu
      have hroom := hsafe hnu (htemp hnu) hless
      omega

/-- A machine with 16 pages, behind `vm_page_init`. -/
def sixteenPages : CommitState where
  max_commit := 0x10000
  boot_commit := 0x10000
  live := []
  cache := fun _ => ⟨.null, 0, 0, false, none, 0⟩

theorem sixteenPages_init : sixteenPages.Init := ⟨rfl, fun _ => rfl, rfl, by decide, by decide⟩

/-- A region is created on a new cache of the store, and deleted again. -/
def createAndDelete (store : vm_store) : List CommitState.CommitCall :=
  [.create 0 store, .acquire_ref 0, .map_backing_store ⟨0, 0, 0x1000, true, none, none⟩,
    .release_ref 0, .release_ref 0]

open CommitState in
theorem memory_commitment_conserved_anonymous :
    ∃ s, By Init Safe Step s ∧ s.live = [] ∧ s.max_commit = s.boot_commit := by
  have hrun : (exec (guarded Safe step) (createAndDelete .anonymous) sixteenPages).map
      (fun s => s.live) = some [] := by rfl
  obtain ⟨s, hexec, hlive⟩ := Option.map_eq_some_iff.mp hrun
  have hs : By Init Safe Step s :=
    By.exec (fun _ _ _ => guarded_some) _ (.init sixteenPages_init) hexec
  exact ⟨s, hs, hlive, (memory_commitment_conserved hs).2.1 hlive⟩

open CommitState in
/-- Creating and deleting a region on a device loses the commitment. -/
theorem memory_commitment_lost :
    ¬ ∀ s, By Init (fun _ _ => True) Step s → s.max_commit + s.promised = s.boot_commit := by
  intro hconserved
  have hrun : (exec step (createAndDelete (.device 0xa0000000)) sixteenPages).map
      (fun s => (s.max_commit + s.promised, s.boot_commit)) = some (0xf000, 0x10000) := by rfl
  obtain ⟨s, hexec, hs⟩ := Option.map_eq_some_iff.mp hrun
  obtain ⟨hsum, hboot⟩ := Prod.mk.inj hs
  have hsame := hconserved s (By.exec (fun _ _ _ h => ⟨trivial, h⟩) _ (.init sixteenPages_init) hexec)
  rw [hsum, hboot] at hsame
  exact absurd hsame (by decide)

end Kernel

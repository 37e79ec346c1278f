import OpenBeOS.Kernel.Fd
import OpenBeOS.Lib.Reachable

/-! # Reference counts of file descriptors

`Sound` is the invariant: the counts are the references, and a context counts the descriptors in its
table but for those it has inherited. Every step keeps it, as long as `user_ioctl`, which has no
`put_fd`, finds no descriptor.
-/

namespace Kernel

open RefCount Reachable Function List Option

namespace io_context

variable {ioctx ioctx' : io_context} {f : Nat} {fd : Int}

theorem count_slots (ioctx : io_context) (f : Nat) :
    ioctx.slots.count f = (ioctx.fds.map fun x => if x = some f then 1 else 0).sum := by
  unfold slots
  induction ioctx.fds with
  | nil => rfl
  | cons x xs ih =>
    rw [map_cons, sum_cons]
    cases x with
    | none => rw [filterMap_cons_none rfl, ih, if_neg nofun, Nat.zero_add]
    | some g =>
      rw [filterMap_cons_some (show id (some g) = some g from rfl), count_cons, ih, Nat.add_comm]
      congr 1
      exact if_congr (by rw [beq_iff_eq, Option.some.injEq]) rfl rfl

theorem length_slots (ioctx : io_context) :
    ioctx.slots.length = (ioctx.fds.map fun x => if x.isSome then 1 else 0).sum := by
  unfold slots
  induction ioctx.fds with
  | nil => rfl
  | cons x xs ih =>
    rw [map_cons, sum_cons]
    cases x with
    | none => rw [filterMap_cons_none rfl, ih, if_neg nofun, Nat.zero_add]
    | some g =>
      rw [filterMap_cons_some (show id (some g) = some g from rfl), length_cons, ih]
      exact Nat.add_comm _ 1

theorem get_mem (h : ioctx.get fd = some f) : ioctx.fds[fd.toNat]? = some (some f) := by
  unfold get at h
  split at h
  · rename_i hfd
    rw [getD_eq_getElem?_getD] at h
    cases hget : ioctx.fds[fd.toNat]? with
    | none =>
      rw [hget] at h
      cases h
    | some x =>
      rw [hget] at h
      exact congrArg some h
  · cases h

/-- A slot is filled or emptied. -/
theorem slots_set {i : Nat} {x : Option Nat} (hx : ioctx.fds[i]? = some x) (y : Option Nat)
    (num_used_fds : Int) :
    (∀ g, (slots ⟨num_used_fds, ioctx.fds.set i y⟩).count g + x.toList.count g =
      ioctx.slots.count g + y.toList.count g) ∧
    (slots ⟨num_used_fds, ioctx.fds.set i y⟩).length + x.toList.length =
      ioctx.slots.length + y.toList.length := by
  have hcount : ∀ (z : Option Nat) g, z.toList.count g = if z = some g then 1 else 0 := by
    intro z g
    cases z with
    | none => rfl
    | some f =>
      rw [toList_some, count_singleton]
      exact if_congr (by rw [beq_iff_eq, Option.some.injEq]) rfl rfl
  have hlength : ∀ z : Option Nat, z.toList.length = if z.isSome then 1 else 0 := by
    intro z
    cases z <;> rfl
  constructor
  · intro g
    rw [count_slots, count_slots, hcount, hcount]
    exact sum_map_set hx y
  · rw [length_slots, length_slots, hlength, hlength]
    exact sum_map_set hx y

end io_context

namespace FdSystem

variable {s s' : FdSystem} {ctx i f : Nat} {ioctx : io_context} {call : FdCall}

theorem context_eq (h : s.context ctx = some ioctx) : s.contexts[ctx]? = some (some ioctx) := by
  unfold context at h
  rw [getD_eq_getElem?_getD] at h
  cases hget : s.contexts[ctx]? with
  | none =>
    rw [hget] at h
    cases h
  | some x =>
    rw [hget] at h
    exact congrArg some h

theorem context_setContext_self (h : s.context ctx = some ioctx) (new : Option io_context) :
    (s.setContext ctx new).context ctx = new := by
  have hlt := (List.getElem?_eq_some_iff.mp (context_eq h)).1
  show (s.contexts.set ctx new).getD ctx none = new
  rw [getD_eq_getElem?_getD, List.getElem?_set_self hlt]
  rfl

theorem context_setContext_of_ne {ctx' : Nat} (h : ctx' ≠ ctx) (new : Option io_context) :
    (s.setContext ctx new).context ctx' = s.context ctx' := by
  show (s.contexts.set ctx new).getD ctx' none = s.contexts.getD ctx' none
  rw [getD_eq_getElem?_getD, List.getElem?_set_ne (Ne.symm h), getD_eq_getElem?_getD]

/-! ## The references of a step -/

theorem references_setCall (h : s.calls[i]? = some call) (new : FdCall) (g : Nat) :
    (s.setCall i new).references g + call.holds.count g = s.references g + new.holds.count g := by
  have hsum := sum_map_set (g := callRefs g) h new
  show (s.contexts.map (slotRefs g)).sum + ((s.calls.set i new).map (callRefs g)).sum + _ = _
  unfold references callRefs at *
  omega

theorem references_addCall (s : FdSystem) (new : FdCall) (g : Nat) :
    (s.addCall new).references g = s.references g + new.holds.count g := by
  show (s.contexts.map (slotRefs g)).sum + ((s.calls ++ [new]).map (callRefs g)).sum = _
  rw [sum_map_append_singleton, ← Nat.add_assoc]
  rfl

theorem references_of_mem_slots (h : s.context ctx = some ioctx) (g : Nat) :
    ioctx.slots.count g ≤ s.references g := by
  have hle : slotRefs g (some ioctx) ≤ (s.contexts.map (slotRefs g)).sum :=
    le_sum_map_of_mem (mem_of_getElem? (context_eq h))
  exact Nat.le_trans hle (Nat.le_add_right ..)

theorem references_of_mem_holds (h : s.calls[i]? = some call) (g : Nat) :
    call.holds.count g ≤ s.references g := by
  have hle : callRefs g call ≤ (s.calls.map (callRefs g)).sum :=
    le_sum_map_of_mem (mem_of_getElem? h)
  exact Nat.le_trans hle (Nat.le_add_left ..)

/-! ## The invariant -/

/-- The call will give its reference back. -/
def CallOk : FdCall → Prop
  | .operating _ _ _ routine => routine.put = true
  | _ => True

structure Sound (s : FdSystem) : Prop where
  exact : Exact s.counts (fun f => f < s.next_fd) s.references
  used : ∀ ctx ioctx, s.context ctx = some ioctx →
    ioctx.num_used_fds + s.inherited ctx = ioctx.slots.length
  call : ∀ call ∈ s.calls, CallOk call

variable {counts : Counts Nat} {routine : FdRoutine} {fd : Int}

theorem Sound.setCall (h : s.Sound) (hcall : s.calls[i]? = some call) (new : FdCall)
    (hnew : CallOk new)
    (hexact : ∀ refs, (∀ g, refs g + call.holds.count g = s.references g + new.holds.count g) →
      Exact counts (fun f => f < s.next_fd) refs) :
    ({ s with counts }.setCall i new : FdSystem).Sound := by
  refine ⟨hexact _ fun g => references_setCall hcall new g, h.used, fun call' hcall' => ?_⟩
  rcases mem_or_eq_of_mem_set hcall' with hold | rfl
  · exact h.call call' hold
  · exact hnew

theorem Sound.addCall (h : s.Sound) (new : FdCall) (hnew : CallOk new)
    (hexact : Exact counts (fun f => f < s.next_fd) fun g => s.references g + new.holds.count g) :
    ({ s with counts }.addCall new : FdSystem).Sound := by
  refine ⟨hexact.congr fun g => references_addCall s new g, h.used, fun call' hcall' => ?_⟩
  rcases mem_append.mp hcall' with hold | hlast
  · exact h.call call' hold
  · obtain rfl := mem_singleton.mp hlast
    exact hnew

/-- What one slot of a table loses or gets, the calls get or lose. -/
theorem Sound.transfer (h : s.Sound) (hctx : s.context ctx = some ioctx) {fd : Nat}
    {x y : Option Nat} (hx : ioctx.fds[fd]? = some x) {num_used_fds : Int}
    (hnum : num_used_fds + x.toList.length = ioctx.num_used_fds + y.toList.length)
    {calls : List FdCall} (hok : ∀ call ∈ calls, CallOk call)
    (hrefs : ∀ g, (calls.map (callRefs g)).sum + y.toList.count g =
      (s.calls.map (callRefs g)).sum + x.toList.count g) :
    (setContext { s with calls } ctx (some ⟨num_used_fds, ioctx.fds.set fd y⟩)).Sound := by
  obtain ⟨hcount, hlength⟩ := io_context.slots_set hx y num_used_fds
  refine ⟨h.exact.congr fun g => ?_, fun ctx' ioctx' hctx' => ?_, hok⟩
  · have hsum : ((s.contexts.set ctx (some ⟨num_used_fds, ioctx.fds.set fd y⟩)).map
        (slotRefs g)).sum + ioctx.slots.count g = (s.contexts.map (slotRefs g)).sum +
          (io_context.slots ⟨num_used_fds, ioctx.fds.set fd y⟩).count g :=
      sum_map_set (context_eq hctx) _
    have hg := hcount g
    have hcalls := hrefs g
    show ((s.contexts.set ctx (some ⟨num_used_fds, ioctx.fds.set fd y⟩)).map (slotRefs g)).sum +
      (calls.map (callRefs g)).sum = s.references g
    unfold references
    omega
  · change (s.setContext ctx (some ⟨num_used_fds, ioctx.fds.set fd y⟩)).context ctx' = _ at hctx'
    have hused := h.used ctx ioctx hctx
    by_cases hne : ctx' = ctx
    · subst hne
      rw [context_setContext_self hctx] at hctx'
      cases hctx'
      show num_used_fds + s.inherited ctx' = _
      omega
    · rw [context_setContext_of_ne hne] at hctx'
      exact h.used ctx' ioctx' hctx'

/-! ## Descriptors come and go -/

theorem Sound.alloc_fd (h : s.Sound) (ctx : Nat) : (s.alloc_fd ctx).Sound := by
  have hmake := h.exact.make (x := s.next_fd) (Nat.lt_irrefl _)
  refine ⟨?_, h.used, fun call hcall => ?_⟩
  · have hmade : (fun f => f < s.next_fd + 1) = fun f => f < s.next_fd ∨ f = s.next_fd := by
      funext f
      exact propext Nat.lt_succ_iff_lt_or_eq
    show Exact (s.counts.make s.next_fd) (fun f => f < s.next_fd + 1) _
    rw [hmade]
    exact hmake.congr fun g => references_addCall s (.opening ctx s.next_fd) g
  · rcases mem_append.mp hcall with hold | hlast
    · exact h.call call hold
    · obtain rfl := mem_singleton.mp hlast
      trivial

theorem get_pos (hctx : s.context ctx = some ioctx) (hget : ioctx.get fd = some f) :
    0 < s.references f := by
  have hmem : f ∈ ioctx.slots :=
    mem_filterMap.mpr ⟨some f, mem_of_getElem? (io_context.get_mem hget), rfl⟩
  exact Nat.lt_of_lt_of_le (count_pos_iff.mpr hmem) (references_of_mem_slots hctx f)

theorem Sound.begin (h : s.Sound) {buffer : addr}
    (hsafe : routine.put = false → ∀ ioctx,
      s.context (if routine.kernel then 0 else ctx) = some ioctx → ioctx.get fd = none)
    (hstep : s.begin routine ctx buffer fd = some s') : s'.Sound := by
  have hreturned : ∀ result, (s.addCall (.returned result)).Sound := fun result =>
    h.addCall (.returned result) trivial h.exact
  unfold FdSystem.begin at hstep
  split at hstep
  · cases hstep
    exact hreturned _
  · obtain ⟨ioctx, hctx, rfl⟩ := map_eq_some_iff.mp hstep
    split
    · rename_i f hget
      have hput : routine.put = true := by
        by_contra hput
        rw [hsafe (Bool.not_eq_true _ ▸ hput) _ hctx] at hget
        cases hget
      refine h.addCall (.operating _ fd f routine) hput ?_
      exact h.exact.acquireAll [f] fun x hx => by
        obtain rfl := mem_singleton.mp hx
        exact get_pos hctx hget
    · exact hreturned _

theorem Sound.new_fd (h : s.Sound) (hcall : s.calls[i]? = some (.opening ctx f))
    (hstep : s.new_fd i ctx f = some s') : s'.Sound := by
  obtain ⟨ioctx, hctx, rfl⟩ := map_eq_some_iff.mp hstep
  unfold io_context.insert
  cases hfind : ioctx.fds.findIdx? (·.isNone) with
  | none => exact h
  | some fd =>
    obtain ⟨hlt, hfree, -⟩ := List.findIdx?_eq_some_iff_getElem.mp hfind
    have hslot : ioctx.fds[fd]? = some none := by
      rw [List.getElem?_eq_getElem hlt, isNone_iff_eq_none.mp hfree]
    show (setContext { s with calls := s.calls.set i (.returned (.ok fd)) } ctx
      (some ⟨ioctx.num_used_fds + 1, ioctx.fds.set fd (some f)⟩)).Sound
    refine h.transfer hctx hslot ?_ (fun call hmem => ?_) fun g => ?_
    · exact Int.add_zero _
    · rcases mem_or_eq_of_mem_set hmem with hold | rfl
      · exact h.call call hold
      · trivial
    · exact sum_map_set hcall (.returned (.ok fd))

theorem Sound.removed (h : s.Sound) (hctx : s.context ctx = some ioctx)
    (hget : ioctx.get fd = some f) (calls : List FdCall) (hok : ∀ call ∈ calls, CallOk call)
    (hrefs : ∀ g, (calls.map (callRefs g)).sum = (s.calls.map (callRefs g)).sum + [f].count g) :
    (setContext { s with calls } ctx
      (some ⟨ioctx.num_used_fds - 1, ioctx.fds.set fd.toNat none⟩)).Sound := by
  refine h.transfer hctx (io_context.get_mem hget) ?_ hok hrefs
  show ioctx.num_used_fds - 1 + 1 = ioctx.num_used_fds + 0
  omega

theorem remove_some (hget : ioctx.get fd = some f) : ioctx.remove fd =
    (some f, ⟨ioctx.num_used_fds - 1, ioctx.fds.set fd.toNat none⟩) := by
  unfold io_context.remove
  rw [hget]

theorem remove_none (hget : ioctx.get fd = none) : ioctx.remove fd = (none, ioctx) := by
  unfold io_context.remove
  rw [hget]

theorem Sound.remove_fd (h : s.Sound) (hstep : s.remove_fd ctx fd = some s') : s'.Sound := by
  obtain ⟨ioctx, hctx, rfl⟩ := map_eq_some_iff.mp hstep
  cases hget : ioctx.get fd with
  | none =>
    rw [remove_none hget]
    exact h
  | some g =>
    rw [remove_some hget]
    refine h.removed hctx hget (s.calls ++ [.removing g none]) (fun call hmem => ?_)
      fun x => ?_
    · rcases mem_append.mp hmem with hold | hlast
      · exact h.call call hold
      · obtain rfl := mem_singleton.mp hlast
        trivial
    · exact sum_map_append_singleton s.calls (.removing g none)

/-! ## The sections of a call -/

theorem Sound.finish (h : s.Sound)
    (hcall : s.calls[i]? = some (.operating ctx fd f routine)) (result : Except FdError Int) :
    (s.setCall i (FdSystem.finish routine f result)).Sound := by
  have hput : routine.put = true := h.call _ (mem_of_getElem? hcall)
  unfold FdSystem.finish
  rw [if_pos hput]
  refine h.setCall hcall (.putting f result) trivial fun refs hrefs => ?_
  exact h.exact.congr fun g => Nat.add_right_cancel (hrefs g)

theorem Sound.operate (h : s.Sound) {op : Option Int}
    (hcall : s.calls[i]? = some (.operating ctx fd f routine))
    (hstep : s.operate i ctx fd f routine op = some s') : s'.Sound := by
  cases op with
  | none =>
    cases hstep
    exact h.finish hcall _
  | some retval =>
    simp only [FdSystem.operate] at hstep
    split at hstep
    · obtain ⟨ioctx, hctx, rfl⟩ := map_eq_some_iff.mp hstep
      cases hget : ioctx.get fd with
      | none =>
        rw [remove_none hget]
        exact h.finish hcall _
      | some g =>
        rw [remove_some hget]
        refine h.removed hctx hget (s.calls.set i (.removing g (some f)))
          (fun call hmem => ?_) fun x => ?_
        · rcases mem_or_eq_of_mem_set hmem with hold | rfl
          · exact h.call call hold
          · trivial
        · have hset := sum_map_set (g := callRefs x) hcall (.removing g (some f))
          have hcons : callRefs x (.removing g (some f)) = [f].count x + [g].count x := by
            show (g :: [f]).count x = _
            rw [count_cons, count_singleton, count_singleton]
          change _ + [f].count x = _ at hset
          omega
    · cases hstep
      exact h.finish hcall _

theorem Sound.putFd (h : s.Sound) {g : Nat} (hcall : s.calls[i]? = some call) (new : FdCall)
    (hnew : CallOk new) (hholds : ∀ x, call.holds.count x = new.holds.count x + [g].count x) :
    ((s.put_fd g).setCall i new).Sound := by
  refine h.setCall hcall new hnew fun refs hrefs => ?_
  refine (h.exact.releaseAll [g] fun x => ?_).congr fun x => ?_
  · have hle := references_of_mem_holds hcall x
    have hx := hholds x
    omega
  · have hx := hholds x
    have hsame := hrefs x
    omega

theorem Sound.goOn (h : s.Sound) {op : Option Int} (hcall : s.calls[i]? = some call)
    (hstep : s.goOn i op call = some s') : s'.Sound := by
  cases call with
  | opening ctx f => exact h.new_fd hcall hstep
  | operating ctx fd f routine => exact h.operate hcall hstep
  | removing g f =>
    cases f with
    | none =>
      cases hstep
      exact h.putFd hcall (.returned (.ok 0)) trivial fun x => (Nat.zero_add _).symm
    | some f =>
      cases hstep
      refine h.putFd hcall (.putting f (.ok 0)) trivial fun x => ?_
      show (g :: [f]).count x = [f].count x + [g].count x
      rw [count_cons, count_singleton, count_singleton]
  | putting f result =>
    cases hstep
    exact h.putFd hcall (.returned result) trivial fun x => (Nat.zero_add _).symm
  | returned result => cases hstep

/-! ## Contexts come and go -/

theorem context_append {contexts : List (Option io_context)} {new : io_context}
    (h : (contexts ++ [some new]).getD ctx none = some ioctx) :
    contexts.getD ctx none = some ioctx ∧ ctx ≠ contexts.length ∨
      ctx = contexts.length ∧ new = ioctx := by
  rw [getD_eq_getElem?_getD] at h ⊢
  rcases Nat.lt_trichotomy ctx contexts.length with hlt | rfl | hgt
  · rw [List.getElem?_append_left hlt] at h
    exact Or.inl ⟨h, Nat.ne_of_lt hlt⟩
  · rw [List.getElem?_concat_length] at h
    exact Or.inr ⟨rfl, Option.some.inj h⟩
  · rw [List.getElem?_eq_none (by rw [length_append, length_singleton]; omega)] at h
    cases h

theorem Sound.newContext (h : s.Sound) {fds : List (Option Nat)}
    {inherited : Nat} (hinherited : inherited = (io_context.slots ⟨0, fds⟩).length)
    (hexact : Exact counts (fun f => f < s.next_fd) fun g =>
      s.references g + (io_context.slots ⟨0, fds⟩).count g) :
    FdSystem.Sound { s with
      contexts := s.contexts ++ [some ⟨0, fds⟩]
      counts
      inherited := update s.inherited s.contexts.length inherited } := by
  refine ⟨hexact.congr fun g => ?_, fun ctx ioctx hctx => ?_, h.call⟩
  · show ((s.contexts ++ [some (io_context.mk 0 fds)]).map (slotRefs g)).sum + (s.calls.map (callRefs g)).sum =
      (s.contexts.map (slotRefs g)).sum + (s.calls.map (callRefs g)).sum +
        slotRefs g (some (io_context.mk 0 fds))
    rw [sum_map_append_singleton]
    omega
  · show ioctx.num_used_fds + (update s.inherited s.contexts.length inherited ctx : Nat) = _
    rcases context_append hctx with ⟨hold, hne⟩ | ⟨rfl, rfl⟩
    · rw [update_of_ne hne]
      exact h.used ctx ioctx hold
    · rw [update_self, hinherited, Int.zero_add]

theorem Sound.vfs_new_io_context (h : s.Sound) {parent_ioctx : Option Nat}
    (hstep : s.vfs_new_io_context parent_ioctx = some s') : s'.Sound := by
  cases parent_ioctx with
  | none =>
    cases hstep
    have hempty : io_context.slots ⟨0, List.replicate DEFAULT_FD_TABLE_SIZE none⟩ = [] := by
      unfold io_context.slots
      rw [filterMap_replicate_of_none rfl]
    refine h.newContext ?_ (h.exact.congr fun g => ?_)
    · rw [hempty]
      rfl
    · rw [hempty]
      rfl
  | some parent =>
    obtain ⟨ioctx, hctx, rfl⟩ := map_eq_some_iff.mp hstep
    refine h.newContext rfl (h.exact.acquireAll ioctx.slots fun x hx => ?_)
    exact Nat.lt_of_lt_of_le (count_pos_iff.mpr hx) (references_of_mem_slots hctx x)

theorem Sound.vfs_free_io_context (h : s.Sound) (hstep : s.vfs_free_io_context ctx = some s') :
    s'.Sound := by
  obtain ⟨ioctx, hctx, rfl⟩ := map_eq_some_iff.mp hstep
  refine ⟨(h.exact.releaseAll ioctx.slots fun x => references_of_mem_slots hctx x).congr
    fun g => ?_, fun ctx' ioctx' hctx' => ?_, h.call⟩
  · have hsum : ((s.contexts.set ctx none).map (slotRefs g)).sum + ioctx.slots.count g =
        (s.contexts.map (slotRefs g)).sum + 0 := sum_map_set (context_eq hctx) none
    show ((s.contexts.set ctx none).map (slotRefs g)).sum + (s.calls.map (callRefs g)).sum = _
    unfold references
    omega
  · change (s.setContext ctx none).context ctx' = some ioctx' at hctx'
    by_cases hne : ctx' = ctx
    · subst hne
      rw [context_setContext_self hctx] at hctx'
      cases hctx'
    · rw [context_setContext_of_ne hne] at hctx'
      exact h.used ctx' ioctx' hctx'

/-! ## Every run -/

/-- A routine that has no `put_fd` finds no descriptor. -/
def Safe (s : FdSystem) : FdAction → Prop
  | .call routine ctx _ fd => routine.put = false →
      ∀ ioctx ∈ s.context (if routine.kernel then 0 else ctx), ioctx.get fd = none
  | _ => True

instance (s : FdSystem) : DecidablePred s.Safe
  | .call .. => inferInstanceAs (Decidable (_ → ∀ _ ∈ _, _))
  | .alloc_fd _ | .remove_fd .. | .go .. | .vfs_new_io_context _ | .vfs_free_io_context _ =>
    inferInstanceAs (Decidable True)

theorem init_sound (h : s.Init) : s.Sound := by
  obtain ⟨hcontexts, hnext, hcalls⟩ := h
  have hnone : ∀ g, s.references g = 0 := by
    intro g
    unfold references
    rw [hcontexts, hcalls]
    rfl
  refine ⟨⟨fun f hf => ?_, fun f hf => ?_, fun f _ => hnone f⟩, fun ctx ioctx hctx => ?_,
    fun call hcall => ?_⟩
  · exact absurd hf (by omega)
  · exact absurd hf (by omega)
  · unfold context at hctx
    rw [hcontexts] at hctx
    cases hctx
  · rw [hcalls] at hcall
    exact absurd hcall not_mem_nil

theorem step_sound {a : FdAction} (h : s.Sound) (hsafe : s.Safe a) (hstep : s.Step a s') :
    s'.Sound := by
  cases a with
  | alloc_fd ctx =>
    cases hstep
    exact h.alloc_fd ctx
  | call routine ctx buffer fd =>
    simp only [Step, step] at hstep
    split at hstep
    · exact h.begin (fun hput ioctx hctx => hsafe hput ioctx hctx) hstep
    · cases hstep
  | remove_fd ctx fd => exact h.remove_fd hstep
  | go i op =>
    simp only [Step, step] at hstep
    split at hstep
    · rename_i call hcall
      exact h.goOn hcall hstep
    · cases hstep
  | vfs_new_io_context parent_ioctx => exact h.vfs_new_io_context hstep
  | vfs_free_io_context ctx =>
    simp only [Step, step] at hstep
    split at hstep
    · exact h.vfs_free_io_context hstep
    · cases hstep

def boot : FdSystem := ⟨[], ⟨fun _ => 0, fun _ => 0⟩, 0, [], fun _ => 0⟩

theorem init_boot : boot.Init := ⟨rfl, rfl, rfl⟩

/-- A descriptor is opened in the first context. -/
def opened : List FdAction := [.vfs_new_io_context none, .alloc_fd 0, .go 0 none]

end FdSystem

end Kernel

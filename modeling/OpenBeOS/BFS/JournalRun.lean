import OpenBeOS.BFS.JournalNotify

/-! # Runs of the journal

The calls of `WriteLogEntry()` and of `blockNotify()` in any order, with the entries written so
far. In the runs in which no entry fills the log, and in which the flush of an entry that goes
around the end of the log leaves something to flush, the log pointers delimit the live entries.
-/

namespace BFS

open LinkedList Circular Function List

/-! ## The events of a flush -/

/-- The number of blocks of an entry the events notify of. -/
def notified (id : Nat) : List CacheEvent → Nat
  | [] => 0
  | .notify logEntry numBlocks :: events =>
    (if logEntry = id then numBlocks else 0) + notified id events
  | .written _ _ :: events => notified id events

/-- The cache calls the hook of an entry for blocks it has been set for, once for each, and writes
no block home that belongs to the log. -/
structure EventsOk (L : Log) (j : Journal) (events : List CacheEvent) : Prop where
  pos : ∀ logEntry numBlocks, .notify logEntry numBlocks ∈ events → 0 < numBlocks
  notified : ∀ id, notified id events ≤ (j.entry id).cached_blocks
  outside : ∀ block content, .written block content ∈ events → ¬ L.Contains block

/-- Blocks of an entry stay unflushed. -/
def Journal.Spares (j : Journal) (events : List CacheEvent) (id : Nat) : Prop :=
  notified id events < (j.entry id).cached_blocks

theorem notified_append (id : Nat) : ∀ events events' : List CacheEvent,
      notified id (events ++ events') = notified id events + notified id events'
  | [], events' => (Nat.zero_add _).symm
  | .notify logEntry numBlocks :: events, events' => by
    rw [cons_append, notified, notified, notified_append id events events', Nat.add_assoc]
  | .written _ _ :: events, events' => notified_append id events events'

theorem EventsOk.of_append {L : Log} {j : Journal} {events events' : List CacheEvent}
    (h : EventsOk L j (events ++ events')) : EventsOk L j events where
  pos := fun id n hn => h.pos id n (mem_append_left _ hn)
  notified := fun id => by
    have := h.notified id
    rw [notified_append] at this
    omega
  outside := fun b c hb => h.outside b c (mem_append_left _ hb)

theorem cacheEvent_cached {L : Log} {j : Journal} {event : CacheEvent}
    (hok : EventsOk L j [event]) (hcached : ∀ id, (j.entry id).cached_blocks < 2 ^ 32) (id : Nat) :
    ((j.cacheEvent L event).entry id).cached_blocks =
      (j.entry id).cached_blocks - notified id [event] := by
  cases event with
  | written block content => rfl
  | notify logEntry numBlocks =>
    have hpos := hok.pos logEntry numBlocks (mem_singleton_self _)
    have hle := hok.notified logEntry
    rw [notified, if_pos rfl, notified] at hle
    rw [Journal.cacheEvent, blockNotify_entry L j logEntry numBlocks (by omega)
      (hcached logEntry) hpos, update_apply, notified, notified]
    by_cases hid : id = logEntry
    · rw [if_pos hid, if_pos hid.symm, hid]
      rfl
    · rw [if_neg hid, if_neg (Ne.symm hid)]
      rfl

theorem cacheEvent_frame (L : Log) (j : Journal) (event : CacheEvent) :
    (j.cacheEvent L event).LogEnd = j.LogEnd ∧ (j.cacheEvent L event).fresh = j.fresh := by
  cases event with
  | written block content => exact ⟨rfl, rfl⟩
  | notify logEntry numBlocks =>
    obtain ⟨hend, -, hfresh⟩ := blockNotify_frame L j logEntry numBlocks
    exact ⟨hend, hfresh⟩

theorem EventsOk.tail {L : Log} {j : Journal} {event : CacheEvent} {events : List CacheEvent}
    (h : EventsOk L j (event :: events)) (hcached : ∀ id, (j.entry id).cached_blocks < 2 ^ 32) :
    EventsOk L (j.cacheEvent L event) events where
  pos := fun id n hn => h.pos id n (mem_cons_of_mem _ hn)
  notified := fun id => by
    have hsum := h.notified id
    rw [← singleton_append, notified_append] at hsum
    have hone : EventsOk L j ([event] ++ events) := h
    rw [cacheEvent_cached hone.of_append hcached]
    omega
  outside := fun b c hb => h.outside b c (mem_cons_of_mem _ hb)

variable {L : Log} {j : Journal} {P : List Logged} {stop : Nat}

theorem Journal.Core.pending_self (h : j.Core L P stop) : j.pending P = P := by
  rcases P with _ | ⟨p, P⟩
  · rfl
  · refine dropWhile_cons_of_neg ?_
    rw [h.head p rfl]
    decide

/-- An event of the cache keeps the invariant. -/
theorem Journal.Core.event (h : j.Core L P stop) {event : CacheEvent} (hok : EventsOk L j [event])
    (hlast : j.LogEnd = stop ∨ ∃ id, j.Spares [event] id) :
    (j.cacheEvent L event).Core L ((j.cacheEvent L event).pending P) stop := by
  cases event with
  | written block content =>
    have hblock := hok.outside block content (mem_singleton_self _)
    have hpending : (j.cacheEvent L (.written block content)).pending P = P := h.pending_self
    refine
      { h with
        chain := by rw [hpending]; exact h.chain
        total := by rw [hpending]; exact h.total
        logStart := by rw [hpending]; exact h.logStart
        head := by rw [hpending]; exact h.head
        list := by rw [hpending]; exact h.list
        record := by rw [hpending]; exact h.record
        known := by rw [hpending]; exact h.known
        sorted := by rw [hpending]; exact h.sorted
        used := by rw [hpending]; exact h.used
        inLog := ?_ }
    rw [hpending]
    intro p hp k hk
    have hne : L.position (p.start + k) ≠ block := by
      intro heq
      rw [← heq] at hblock
      exact hblock (L.contains_position _)
    show update j.disk block content (L.position (p.start + k)) = p.block L k
    rw [update_of_ne hne]
    exact h.inLog p hp k hk
  | notify id numBlocks =>
    have hpos := hok.pos id numBlocks (mem_singleton_self _)
    have hle := hok.notified id
    rw [notified, if_pos rfl, notified] at hle
    refine h.notify hpos (by omega) fun hall => ?_
    rcases hlast with hend | ⟨x, hx⟩
    · exact hend
    · -- the entry that keeps unflushed blocks is live after the call
      have hcount := cacheEvent_cached hok h.cached x
      have hxlive : j.live x = true := by
        rw [Journal.Spares] at hx
        rw [Journal.live, decide_eq_true_eq]
        omega
      obtain ⟨p, hp, rfl⟩ := h.known x hxlive
      have hdead := hall p hp
      rw [Journal.live, decide_eq_false_iff_not] at hdead
      rw [Journal.Spares] at hx
      rw [Journal.cacheEvent] at hcount
      omega

/-- **The events of a flush keep the invariant.** Unless the end of the log is where the entries
end, blocks of one of them have to stay unflushed. -/
theorem Journal.Core.events :
    ∀ {events : List CacheEvent} {j : Journal} {P : List Logged}, j.Core L P stop →
      EventsOk L j events → (j.LogEnd = stop ∨ ∃ id, j.Spares events id) →
      (j.cacheEvents L events).Core L ((j.cacheEvents L events).pending P) stop ∧
        (j.cacheEvents L events).LogEnd = j.LogEnd ∧
        (j.cacheEvents L events).fresh = j.fresh ∧
        ∀ id, ((j.cacheEvents L events).entry id).cached_blocks =
          (j.entry id).cached_blocks - notified id events
  | [], j, P, h, _, _ => by
    refine ⟨?_, rfl, rfl, fun _ => rfl⟩
    show j.Core L (j.pending P) stop
    rw [h.pending_self]
    exact h
  | event :: events, j, P, h, hok, hlast => by
    have hone : EventsOk L j ([event] ++ events) := hok
    have hcount := cacheEvent_cached hone.of_append h.cached
    have hsum : ∀ id, notified id (event :: events) = notified id [event] + notified id events :=
      fun id => notified_append id [event] events
    obtain ⟨hend, hfresh⟩ := cacheEvent_frame L j event
    have hstep := h.event hone.of_append (hlast.imp_right fun ⟨id, hid⟩ => ⟨id, by
      rw [Journal.Spares] at hid ⊢
      rw [hsum] at hid
      omega⟩)
    obtain ⟨hcore, hend', hfresh', hcount'⟩ := Journal.Core.events hstep (hok.tail h.cached)
      (by
        rw [hend]
        refine hlast.imp_right fun ⟨id, hid⟩ => ⟨id, ?_⟩
        rw [Journal.Spares] at hid ⊢
        rw [hsum] at hid
        rw [hcount]
        omega)
    have hmono : ∀ p : Logged, (!(j.cacheEvent L event).live p.id) = true →
        (!((j.cacheEvent L event).cacheEvents L events).live p.id) = true := by
      intro p hp
      have := hcount' p.id
      simp only [Journal.live, Bool.not_eq_true', decide_eq_false_iff_not] at hp ⊢
      omega
    rw [Journal.cacheEvents, foldl_cons, ← Journal.cacheEvents]
    refine ⟨?_, hend'.trans hend, hfresh'.trans hfresh, fun id => ?_⟩
    · rw [Journal.pending, Journal.pending, dropWhile_dropWhile hmono] at hcore
      exact hcore
    · rw [hcount', hcount, hsum]
      omega

/-! ## Space in the log -/

theorem Journal.Core.freeLogBlocks (h : j.Core L P j.LogEnd)
    (htotal : (P.map (Logged.size L)).sum < L.fLogSize) :
    j.FreeLogBlocks L = L.fLogSize - ((P.map (Logged.size L)).sum : Nat) := by
  have hstop := h.chain.stop_eq h.stop_lt
  have hfirst := h.chain.first_lt h.stop_lt
  have hsize := L.fLogSize_lt
  have hvalue : (if j.LogStart ≤ (j.LogEnd : Int) then (L.fLogSize : Int) - j.LogEnd + j.LogStart
      else j.LogStart - j.LogEnd) = L.fLogSize - ((P.map (Logged.size L)).sum : Nat) := by
    rw [h.logStart]
    rcases Nat.lt_or_ge (first Logged.start P j.LogEnd + (P.map (Logged.size L)).sum) L.fLogSize with
      hno | hwrap
    · rw [Nat.mod_eq_of_lt hno] at hstop
      rw [if_pos (by omega)]
      omega
    · rw [Nat.mod_eq_sub_mod hwrap, Nat.mod_eq_of_lt (by omega)] at hstop
      rw [if_neg (by omega)]
      omega
  rw [Journal.FreeLogBlocks, hvalue]
  refine Int.bmod_eq_of_le (by omega) (by omega)

/-- The loop stops with enough space, or it is not successful; it has let some of the flushes
happen. -/
theorem makeSpace_spec (L : Log) (size : Nat) :
    ∀ (tries : Nat) (events : List (List CacheEvent)) (j : Journal),
      (∃ rounds rest, rounds ++ rest = events ∧
        (j.makeSpace L size tries events).2 = j.cacheEvents L rounds.flatten) ∧
      ((j.makeSpace L size tries events).1 = true →
        ¬ (j.makeSpace L size tries events).2.needsSpace L size)
  | 0, events, j => ⟨⟨[], events, rfl, rfl⟩, nofun⟩
  | tries + 1, events, j => by
    rw [Journal.makeSpace]
    by_cases hneed : j.needsSpace L size
    · rw [if_pos hneed]
      obtain ⟨⟨rounds, rest, happend, heq⟩, hdone⟩ :=
        makeSpace_spec L size tries events.tail (j.cacheEvents L (events.headD []))
      refine ⟨?_, hdone⟩
      rcases events with _ | ⟨round, events⟩
      · obtain ⟨rfl, rfl⟩ := append_eq_nil_iff.mp happend
        exact ⟨[], [], rfl, heq⟩
      · refine ⟨round :: rounds, rest, ?_, ?_⟩
        · rw [cons_append, happend]
          rfl
        · rw [heq, flatten_cons, Journal.cacheEvents, Journal.cacheEvents,
            Journal.cacheEvents, foldl_append]
          rfl
    · rw [if_neg hneed]
      exact ⟨⟨[], events, rfl, rfl⟩, fun _ => hneed⟩

theorem flushForEntry_spec (L : Log) (j : Journal) (call : LogCall) :
    ∃ events rest, events ++ rest = call.events ++ call.spaceEvents.flatten ∧
      (j.flushForEntry L call).2 = j.cacheEvents L events ∧
      ((j.flushForEntry L call).1 = true →
        ¬ (j.flushForEntry L call).2.needsSpace L (L.TransactionSize call.values.length)) := by
  obtain ⟨⟨rounds, rest, happend, heq⟩, hdone⟩ :=
    makeSpace_spec L (L.TransactionSize call.values.length) (L.fLogSize / 2 + 1) call.spaceEvents
      (j.cacheEvents L call.events)
  refine ⟨call.events ++ rounds.flatten, rest.flatten, ?_, ?_, hdone⟩
  · rw [← happend, flatten_append, append_assoc]
  · rw [Journal.flushForEntry, heq, Journal.cacheEvents, Journal.cacheEvents, Journal.cacheEvents,
      foldl_append]

/-! ## A new entry -/

/-- All blocks of the call can be read. -/
def LogCall.readable (call : LogCall) : Bool :=
  call.values.all fun value => (call.contents value).isSome

theorem writeLogged_complete (L : Log) (contents : Int → Option Block) :
    ∀ (values : List Int) (pos : Nat) (disk : Disk), (writeLogged L contents values pos disk).1 =
        values.all fun value => (contents value).isSome
  | [], _, _ => rfl
  | value :: values, pos, disk => by
    rw [writeLogged, all_cons]
    cases contents value with
    | none => rfl
    | some block =>
      show (writeLogged L contents values _ _).1 = (true && _)
      rw [writeLogged_complete L contents values, Bool.true_and]

theorem writeEntry_complete (L : Log) (j : Journal) (call : LogCall) :
    (j.writeEntry L call).1 = call.readable :=
  writeLogged_complete L call.contents call.values _ _

section NewEntry

variable {call : LogCall}

theorem addEntry_live (hvalues : call.values ≠ []) (hlen : call.values.length < 2 ^ 32)
    (disk : Disk) (id : Nat) :
    (j.addEntry L call disk).live id = if id = j.fresh then true else j.live id := by
  have hpos := length_pos_iff.mpr hvalues
  simp only [Journal.live, Journal.addEntry, update_apply]
  split
  · exact decide_eq_true (by rw [Nat.mod_eq_of_lt hlen]; exact hpos)
  · rfl

/-- **The new entry joins the invariant**, at the end of the log. -/
theorem Journal.Core.addEntry (h : j.Core L P j.LogEnd) (hvalues : call.values ≠ [])
    (hsize : (P.map (Logged.size L)).sum + L.TransactionSize call.values.length ≤ L.fLogSize)
    (hfresh : ∀ p ∈ P, p.id < j.fresh) {disk : Disk}
    (hinLog : ∀ p ∈ P, p.InLog L disk) (hnew : (call.logged j.fresh j.LogEnd).InLog L disk) :
    (j.addEntry L call disk).Core L (P ++ [call.logged j.fresh j.LogEnd])
      ((j.LogEnd + L.TransactionSize call.values.length) % L.fLogSize) := by
  have hlog := L.fLogSize_lt
  have hlen : call.values.length ≤ L.TransactionSize call.values.length := Nat.le_add_right _ _
  have hlive := addEntry_live (j := j) (L := L) hvalues (by omega) disk
  have hsame : ∀ p ∈ P, (j.addEntry L call disk).live p.id = j.live p.id := by
    intro p hp
    rw [hlive, if_neg (Nat.ne_of_lt (hfresh p hp))]
  have hself : (j.addEntry L call disk).live (call.logged j.fresh j.LogEnd).id = true := by
    rw [hlive]
    exact if_pos rfl
  have hfilter : (P ++ [call.logged j.fresh j.LogEnd]).filter
      (fun p => (j.addEntry L call disk).live p.id) =
        P.filter (fun p => j.live p.id) ++ [call.logged j.fresh j.LogEnd] := by
    rw [filter_append, filter_congr hsame,
      filter_cons_of_pos (p := fun q : Logged => (j.addEntry L call disk).live q.id) hself]
    rfl
  have hsizeEq : (call.logged j.fresh j.LogEnd).size L = L.TransactionSize call.values.length := rfl
  refine
    { chain := Chain.snoc (x := call.logged j.fresh j.LogEnd) h.stop_lt rfl h.chain
      stop_lt := Nat.mod_lt _ L.fLogSize_pos
      total := ?_
      logStart := ?_
      superStart := h.superStart
      superEnd := h.superEnd
      diskSuper := h.diskSuper
      head := ?_
      list := ?_
      record := ?_
      known := ?_
      sorted := ?_
      used := ?_
      cached := ?_
      inLog := ?_ }
  · rw [map_append, sum_append, map_singleton, sum_singleton, hsizeEq]
    exact hsize
  · rw [first_append_cons]
    exact h.logStart
  · intro p hp
    rcases P with _ | ⟨q, P⟩
    · cases hp
      exact hself
    · cases hp
      rw [hsame p (mem_cons_self ..)]
      exact h.head p rfl
  · rw [Journal.liveIds, hfilter, map_append]
    refine h.list.add fun hmem => ?_
    obtain ⟨p, hp, hid⟩ := mem_map.mp hmem
    exact absurd hid (Nat.ne_of_lt (hfresh p (mem_filter.mp hp).1))
  · intro p hp
    rcases mem_append.mp hp with hp | hp
    · have hne := Nat.ne_of_lt (hfresh p hp)
      simp only [Journal.addEntry, update_of_ne hne]
      exact h.record p hp
    · rw [mem_singleton.mp hp]
      have hend := h.stop_lt
      simp only [Journal.addEntry, LogCall.logged, update_self, toUint16]
      exact ⟨Nat.mod_eq_of_lt (by omega), Nat.mod_eq_of_lt (by omega)⟩
  · intro id hid
    rw [hlive] at hid
    split at hid
    · next heq =>
        exact ⟨_, mem_append_right _ (mem_singleton_self _), heq.symm⟩
    · obtain ⟨p, hp, hpid⟩ := h.known id hid
      exact ⟨p, mem_append_left _ hp, hpid⟩
  · rw [pairwise_append]
    refine ⟨h.sorted, pairwise_singleton .., fun p hp q hq => ?_⟩
    rw [mem_singleton.mp hq]
    exact hfresh p hp
  · have hused := h.used
    have hbound := sum_size_filter_le (L := L) (fun p => j.live p.id) P
    rw [hfilter, map_append, sum_append, map_singleton, sum_singleton, hsizeEq]
    simp only [Journal.addEntry, toUint16]
    omega
  · intro id
    simp only [Journal.addEntry, update_apply]
    split
    · exact Nat.mod_lt _ (by omega)
    · exact h.cached id
  · intro p hp
    rcases mem_append.mp hp with hp | hp
    · exact hinLog p hp
    · rw [mem_singleton.mp hp]
      exact hnew

end NewEntry

/-! ## The invariant of a run -/

/-- What holds between the calls: the pending entries end at the end of the log, and leave some of
it free. -/
structure Journal.Inv (L : Log) (j : Journal) (written : List Logged) : Prop where
  core : j.Core L (j.pending written) j.LogEnd
  total : ((j.pending written).map (Logged.size L)).sum < L.fLogSize
  sorted : written.Pairwise fun p q => p.id < q.id
  fresh : ∀ p ∈ written, p.id < j.fresh

/-- What the cache does at the flushes of a call is ok, and the log does not log itself. -/
structure CallOk (L : Log) (j : Journal) (call : LogCall) : Prop where
  flushes : EventsOk L j (call.events ++ call.spaceEvents.flatten)
  wrap : EventsOk L ((j.flushForEntry L call).2.addEntry L call
    ((j.flushForEntry L call).2.writeEntry L call).2.2) call.flushEvents
  outside : ∀ value ∈ call.values, ¬ L.Contains value

/-- The entry the call writes, if it writes one. -/
def LogCall.entries (L : Log) (j : Journal) (call : LogCall) : List Logged :=
  if call.values ≠ [] ∧ (j.flushForEntry L call).1 = true ∧ call.readable = true then
    [call.logged (j.flushForEntry L call).2.fresh (j.flushForEntry L call).2.LogEnd]
  else []

/-- If the call writes an entry: it does not fill the log. Should it go around the end of the log,
the flush leaves blocks of an entry unflushed; then it may fill the log if it flushes all of the
oldest entry. -/
def LogCall.Safe (L : Log) (j : Journal) (call : LogCall) : Prop :=
  let space := (j.flushForEntry L call).2
  let size := L.TransactionSize call.values.length
  let added := space.addEntry L call (space.writeEntry L call).2.2
  call.values ≠ [] → (j.flushForEntry L call).1 = true → call.readable = true →
    if (space.LogEnd + size) % L.fLogSize < space.LogEnd then
      (∃ id, added.Spares call.flushEvents id) ∧ ((size : Int) ≠ space.FreeLogBlocks L ∨
          ∃ id, added.fEntries.next .first = .node id ∧ ¬ added.Spares call.flushEvents id)
    else (size : Int) ≠ space.FreeLogBlocks L

theorem sum_size_suffix {xs ys : List Logged} (h : xs <:+ ys) :
    (xs.map (Logged.size L)).sum ≤ (ys.map (Logged.size L)).sum := by
  obtain ⟨before, rfl⟩ := h
  rw [map_append, sum_append]
  omega

theorem pending_pending {j' : Journal} (h : ∀ id, j'.live id = true → j.live id = true)
    (written : List Logged) : j'.pending (j.pending written) = j'.pending written := by
  refine dropWhile_dropWhile (fun p hp => ?_) written
  rw [Bool.not_eq_true'] at hp ⊢
  cases hlive : j'.live p.id with
  | false => rfl
  | true => rw [h p.id hlive] at hp; exact hp

section

variable {written : List Logged}

theorem Journal.Inv.events (h : j.Inv L written)
    {events : List CacheEvent} (hok : EventsOk L j events) :
    (j.cacheEvents L events).Inv L written := by
  obtain ⟨hcore, hend, hfresh, hcount⟩ := h.core.events hok (Or.inl rfl)
  have hlive : ∀ id, (j.cacheEvents L events).live id = true → j.live id = true := by
    intro id hid
    rw [Journal.live, decide_eq_true_eq] at hid ⊢
    have := hcount id
    omega
  rw [pending_pending hlive] at hcore
  refine ⟨?_, ?_, h.sorted, ?_⟩
  · rw [hend]
    exact hcore
  · have hsuffix : (j.cacheEvents L events).pending written <:+ j.pending written := by
      rw [← pending_pending hlive]
      exact dropWhile_suffix _
    exact Nat.lt_of_le_of_lt (sum_size_suffix hsuffix) h.total
  · rw [hfresh]
    exact h.fresh

theorem Journal.Inv.flush {call : LogCall} (h : j.Inv L written)
    (hok : EventsOk L j (call.events ++ call.spaceEvents.flatten)) :
    (j.flushForEntry L call).2.Inv L written := by
  obtain ⟨events, rest, happend, heq, -⟩ := flushForEntry_spec L j call
  rw [← happend] at hok
  rw [heq]
  exact h.events hok.of_append

theorem Journal.Inv.space (h : j.Inv L written) {size : Nat}
    (hspace : ¬ j.needsSpace L size) :
    (size : Int) ≤ j.FreeLogBlocks L ∧
      ((j.pending written).map (Logged.size L)).sum + size ≤ L.fLogSize ∧
      ((size : Int) ≠ j.FreeLogBlocks L →
        ((j.pending written).map (Logged.size L)).sum + size < L.fLogSize) := by
  have hfree := h.core.freeLogBlocks h.total
  have htotal := h.total
  have hlog := L.fLogSize_lt
  rw [Journal.needsSpace, hfree, Int.emod_eq_of_lt (by omega) (by omega)] at hspace
  rw [hfree]
  omega

theorem Journal.Inv.inLog_frame (h : j.Inv L written) {size : Nat}
    (hsize : ((j.pending written).map (Logged.size L)).sum + size ≤ L.fLogSize) {disk : Disk}
    (hframe : ∀ b, (∀ k < size, b ≠ L.position (j.LogEnd + k)) → disk b = j.disk b) :
    ∀ p ∈ j.pending written, p.InLog L disk := by
  intro p hp k hk
  rw [hframe _ fun i hi => ?_]
  · exact h.core.inLog p hp k hk
  · obtain ⟨before, rest, hsplit⟩ := append_of_mem hp
    have hchain := h.core.chain
    have hstart := hchain.stop_eq h.core.stop_lt
    rw [hsplit] at hchain hstart hsize
    have hp' := hchain.start_eq
    generalize first Logged.start (before ++ p :: rest) j.LogEnd = start at hp' hstart
    simp only [map_append, map_cons, sum_append, sum_cons] at hsize hstart
    refine L.position_ne_of_mod_ne ?_
    rw [hp', hstart, Nat.mod_add_mod, Nat.mod_add_mod]
    exact mod_ne_of_lt (by omega) (by omega)

end

theorem dropWhile_snoc {α : Type} {p q : α → Bool} {y : α} (hy : p y = false) :
    ∀ {xs : List α}, (∀ x ∈ xs, p x = q x) → (xs ++ [y]).dropWhile p = xs.dropWhile q ++ [y]
  | [], _ => dropWhile_cons_of_neg (by simp [hy])
  | x :: xs, h => by
    have hx := h x (mem_cons_self ..)
    cases hqx : q x with
    | true =>
      rw [cons_append, dropWhile_cons_of_pos (hx.trans hqx), dropWhile_cons_of_pos hqx]
      exact dropWhile_snoc hy fun x' hx' => h x' (mem_cons_of_mem _ hx')
    | false =>
      rw [cons_append, dropWhile_cons_of_neg (by simp [hx, hqx]),
        dropWhile_cons_of_neg (by simp [hqx])]
      rfl

theorem Journal.Core.moveEnd (h : j.Core L P stop) : (j.moveEnd stop).Core L P stop :=
  { h with
    superStart := h.superStart
    superEnd := rfl
    diskSuper := rfl }

theorem Logged.size_pos (L : Log) (p : Logged) : 0 < p.size L := by
  have := (L.blocksUsed_spec p.values.length).2.2
  rw [Logged.size, Log.TransactionSize]
  omega

theorem Journal.Core.total_lt (h : j.Core L P stop) {j' : Journal} {id : Nat}
    (hfirst : j.fEntries.next .first = .node id) (hdead : j'.live id = false) :
    ((j'.pending P).map (Logged.size L)).sum < L.fLogSize := by
  have hhead := (h.list.next_first_iff id).mp hfirst
  have htotal := h.total
  rcases P with _ | ⟨p, P⟩
  · cases hhead
  · have hid : p.id = id := by
      rw [Journal.liveIds, filter_cons_of_pos (p := fun q : Logged => j.live q.id)
        (h.head p rfl)] at hhead
      simpa using hhead
    have hdrop : j'.pending (p :: P) = j'.pending P :=
      dropWhile_cons_of_pos (by rw [hid, hdead]; rfl)
    have hsum := sum_size_suffix (L := L)
      (show j'.pending P <:+ P from dropWhile_suffix _)
    have hpos := p.size_pos L
    rw [map_cons, sum_cons] at htotal
    rw [hdrop]
    omega

/-- What a call does: nothing, the flushes only, writing without an entry, or all of it. -/
theorem WriteLogEntry_cases (L : Log) (j : Journal) (call : LogCall) :
    call.entries L j = [] ∧ (j.WriteLogEntry L call).2 = j ∨
    call.entries L j = [] ∧ (j.WriteLogEntry L call).2 = (j.flushForEntry L call).2 ∨
    (j.flushForEntry L call).1 = true ∧ call.entries L j = [] ∧
      (j.WriteLogEntry L call).2 = { (j.flushForEntry L call).2 with
        disk := ((j.flushForEntry L call).2.writeEntry L call).2.2 } ∨
    call.values ≠ [] ∧ (j.flushForEntry L call).1 = true ∧ call.readable = true ∧ call.entries L j =
        [call.logged (j.flushForEntry L call).2.fresh (j.flushForEntry L call).2.LogEnd] ∧
      (j.WriteLogEntry L call).2 =
        let space := (j.flushForEntry L call).2
        let w := space.writeEntry L call
        let added := space.addEntry L call w.2.2
        (if w.2.1 < space.LogEnd then added.cacheEvents L call.flushEvents else added).moveEnd
          w.2.1 := by
  have hcomplete := writeEntry_complete L (j.flushForEntry L call).2 call
  rw [Journal.WriteLogEntry, LogCall.entries]
  by_cases hvalues : call.values = []
  · simp [hvalues]
  by_cases hspace : (j.flushForEntry L call).1 = true
  swap
  · simp [hvalues, hspace]
  by_cases hreadable : call.readable = true
  · rw [hreadable] at hcomplete
    simp [hvalues, hspace, hreadable, hcomplete]
  · rw [Bool.not_eq_true] at hreadable
    rw [hreadable] at hcomplete
    simp [hvalues, hspace, hreadable, hcomplete]

theorem Journal.Inv.pending_fresh {written : List Logged} (h : j.Inv L written) :
    ∀ p ∈ j.pending written, p.id < j.fresh :=
  fun p hp => h.fresh p ((dropWhile_suffix fun q : Logged => !j.live q.id).subset hp)

/-- The invariant after the end of the log has moved behind the new entry. -/
theorem Journal.Inv.finish {written : List Logged} (h : j.Inv L written) {call : LogCall}
    {added after : Journal} {disk : Disk} (hadded : added = j.addEntry L call disk)
    (hcore : after.Core L
      (after.pending (j.pending written ++ [call.logged j.fresh j.LogEnd])) stop)
    (hlive : ∀ id, after.live id = true → added.live id = true)
    (htotal : ((after.pending (j.pending written ++ [call.logged j.fresh j.LogEnd])).map
      (Logged.size L)).sum < L.fLogSize)
    (hfresh : after.fresh = added.fresh) (hvalues : call.values ≠ [])
    (hlen : call.values.length < 2 ^ 32) :
    (after.moveEnd stop).Inv L (written ++ [call.logged j.fresh j.LogEnd]) := by
  have hnew := addEntry_live (j := j) (L := L) hvalues hlen disk
  rw [← hadded] at hnew
  have hself : added.live (call.logged j.fresh j.LogEnd).id = true := by
    rw [hnew]
    exact if_pos rfl
  -- what is pending with the new entry
  have hpending : added.pending (written ++ [call.logged j.fresh j.LogEnd]) =
      j.pending written ++ [call.logged j.fresh j.LogEnd] := by
    refine dropWhile_snoc (by rw [hself]; rfl) fun p hp => ?_
    rw [hnew, if_neg (Nat.ne_of_lt (h.fresh p hp))]
  rw [← hpending, pending_pending hlive] at hcore htotal
  refine ⟨hcore.moveEnd, htotal, ?_, fun p hp => ?_⟩
  · rw [pairwise_append]
    refine ⟨h.sorted, pairwise_singleton .., fun p hp q hq => ?_⟩
    rw [mem_singleton.mp hq]
    exact h.fresh p hp
  · show p.id < after.fresh
    rw [hfresh, hadded]
    show p.id < j.fresh + 1
    rcases mem_append.mp hp with hp | hp
    · have := h.fresh p hp
      omega
    · rw [mem_singleton.mp hp]
      exact Nat.lt_succ_self _

/-- **A call of `WriteLogEntry()` keeps the invariant.** -/
theorem Journal.Inv.write {written : List Logged} {call : LogCall} (h : j.Inv L written)
    (hok : CallOk L j call) (hsafe : call.Safe L j) :
    (j.WriteLogEntry L call).2.Inv L (written ++ call.entries L j) := by
  have hs := h.flush hok.flushes
  obtain ⟨-, -, -, -, hdone⟩ := flushForEntry_spec L j call
  have hwrap := hok.wrap
  have hcases := WriteLogEntry_cases L j call
  rw [LogCall.Safe] at hsafe
  generalize j.flushForEntry L call = space at hs hdone hwrap hsafe hcases
  rcases hcases with ⟨hnil, heq⟩ | ⟨hnil, heq⟩ | ⟨hspace, hnil, heq⟩ |
    ⟨hvalues, hspace, hreadable, hone, heq⟩
  · rw [hnil, heq, append_nil]
    exact h
  · rw [hnil, heq, append_nil]
    exact hs
  · -- the blocks of the incomplete entry are not those of the log's entries
    obtain ⟨-, hsize, -⟩ := hs.space (hdone hspace)
    have hframe := (@writeEntry_spec L space.2 call hs.core.stop_lt
      (by omega) space.2.fresh).1
    rw [hnil, heq, append_nil]
    exact ⟨{ hs.core with inLog := hs.inLog_frame hsize hframe }, hs.total, hs.sorted, hs.fresh⟩
  obtain ⟨-, hsize, hfull⟩ := hs.space (hdone hspace)
  have hlen : call.values.length ≤ L.TransactionSize call.values.length := Nat.le_add_right _ _
  have hlog := L.fLogSize_lt
  obtain ⟨hframe, hwritten⟩ := @writeEntry_spec L space.2 call
    hs.core.stop_lt (by omega) space.2.fresh
  obtain ⟨hpos, hnew⟩ := hwritten ((writeEntry_complete L space.2 call).trans hreadable)
  have hadded := hs.core.addEntry hvalues hsize hs.pending_fresh (hs.inLog_frame hsize hframe) hnew
  have hsum : (((space.2.pending written) ++ [call.logged space.2.fresh space.2.LogEnd]).map
      (Logged.size L)).sum = ((space.2.pending written).map (Logged.size L)).sum +
        L.TransactionSize call.values.length := by
    rw [map_append, sum_append]
    rfl
  specialize hsafe hvalues hspace hreadable
  rw [hone, heq]
  simp only
  rw [hpos]
  generalize hdef : space.2.addEntry L call (space.2.writeEntry L call).2.2 = added
    at hadded hwrap hsafe
  by_cases hround : (space.2.LogEnd + L.TransactionSize call.values.length) % L.fLogSize <
      space.2.LogEnd
  · -- the log goes to the next round
    rw [if_pos hround] at hsafe ⊢
    obtain ⟨hcore, -, hfresh, hcount⟩ := hadded.events hwrap (Or.inr hsafe.1)
    refine hs.finish hdef.symm hcore (fun id hid => ?_) ?_ hfresh hvalues (by omega)
    · have := hcount id
      rw [Journal.live, decide_eq_true_eq] at hid ⊢
      omega
    · rcases hsafe.2 with hne | ⟨id, hfirst, hspares⟩
      · have hsuffix := sum_size_suffix (L := L) (dropWhile_suffix
          (l := space.2.pending written ++ [call.logged space.2.fresh space.2.LogEnd])
          fun p => !(added.cacheEvents L call.flushEvents).live p.id)
        have := hfull hne
        rw [hsum] at hsuffix
        exact Nat.lt_of_le_of_lt hsuffix this
      · refine hadded.total_lt hfirst ?_
        have := hcount id
        rw [Journal.Spares] at hspares
        rw [Journal.live, decide_eq_false_iff_not]
        omega
  · rw [if_neg hround] at hsafe ⊢
    have hself := hadded.pending_self
    refine hs.finish hdef.symm ?_ (fun _ h => h) ?_ rfl hvalues (by omega)
    · rw [hself]
      exact hadded
    · rw [hself, hsum]
      exact hfull hsafe

/-! ## Runs -/

/-- The journal of a volume that has been mounted with nothing in its log. -/
def Journal.mount (pos : Nat) (disk : Disk) : Journal where
  fUsed := 0
  fEntries := Links.empty
  entry := fun _ => ⟨0, 0, 0⟩
  fresh := 0
  LogStart := pos
  LogEnd := pos
  superBlock := ⟨pos, pos, .SUPER_BLOCK_DISK_CLEAN⟩
  disk := disk
  diskSuperBlock := ⟨pos, pos, .SUPER_BLOCK_DISK_CLEAN⟩

/-- The journals reachable by calls of `WriteLogEntry()` that are `safe` and flushes of the cache
between them, with the entries written so far. -/
inductive Journal.Run (L : Log) (safe : Journal → LogCall → Prop) : List Logged → Journal → Prop
  | mount (pos : Nat) (disk : Disk) : pos < L.fLogSize → Run L safe [] (.mount pos disk)
  | events {written : List Logged} {j : Journal} (events : List CacheEvent) :
      Run L safe written j → EventsOk L j events → Run L safe written (j.cacheEvents L events)
  | write {written : List Logged} {j : Journal} (call : LogCall) :
      Run L safe written j → CallOk L j call → safe j call →
      Run L safe (written ++ call.entries L j) (j.WriteLogEntry L call).2

theorem mount_inv {pos : Nat} (hpos : pos < L.fLogSize) (disk : Disk) :
    (Journal.mount pos disk).Inv L [] where
  core :=
    { chain := trivial
      stop_lt := hpos
      total := Nat.zero_le _
      logStart := rfl
      superStart := rfl
      superEnd := rfl
      diskSuper := rfl
      head := nofun
      list := Links.empty_isList
      record := nofun
      known := fun _ h => absurd h (by simp [Journal.live, Journal.mount])
      sorted := List.Pairwise.nil
      used := rfl
      cached := fun _ => by show 0 < 2 ^ 32; omega
      inLog := nofun }
  total := L.fLogSize_pos
  sorted := List.Pairwise.nil
  fresh := nofun

/-- **Runs keep the invariant.** -/
theorem Journal.Run.inv {safe : Journal → LogCall → Prop} {written : List Logged}
    (hsafe : ∀ j call, safe j call → call.Safe L j) (h : Journal.Run L safe written j) :
    j.Inv L written := by
  induction h with
  | mount pos disk hpos => exact mount_inv hpos disk
  | events events _ hok ih => exact ih.events hok
  | write call _ hok hcall ih => exact ih.write hok (hsafe _ call hcall)

/-! ## The log pointers -/

/-- The log pointers delimit the live entries `ids`, the oldest one first. -/
structure Journal.Delimits (L : Log) (j : Journal) (ids : List Nat) : Prop where
  list : j.fEntries.IsList ids
  live : ∀ id, id ∈ ids ↔ 0 < (j.entry id).cached_blocks
  oldest : ids.Pairwise fun x y => x < y
  start : j.LogStart = match ids.head? with
    | some id => ((j.entry id).start : Int)
    | none => j.LogEnd
  superBlock : j.superBlock.log_start = j.LogStart ∧ j.superBlock.log_end = j.LogEnd ∧
    j.diskSuperBlock = j.superBlock
  clean : j.LogStart = j.LogEnd ↔ ids = []
  disjoint : ids.Pairwise fun x y =>
    ∀ i < (j.entry x).length, ∀ k < (j.entry y).length,
      ((j.entry x).start + i) % L.fLogSize ≠ ((j.entry y).start + k) % L.fLogSize
  used : j.fUsed = (ids.map fun id => (j.entry id).length).sum

theorem Journal.Core.start_eq_stop (h : j.Core L P stop)
    (htotal : (P.map (Logged.size L)).sum < L.fLogSize) :
    first Logged.start P stop = stop ↔ P = [] := by
  refine ⟨fun heq => ?_, fun heq => by rw [heq]; rfl⟩
  have hstop := h.chain.stop_eq h.stop_lt
  have hlt := h.stop_lt
  rcases P with _ | ⟨p, P⟩
  · rfl
  · have hpos := p.size_pos L
    rw [heq] at hstop
    rw [map_cons, sum_cons] at htotal hstop
    have hne := @mod_ne_of_lt L.fLogSize stop
      (stop + (p.size L + (P.map (Logged.size L)).sum)) (by omega) (by omega)
    rw [Nat.mod_eq_of_lt hlt] at hne
    exact absurd hstop hne

theorem Journal.Inv.delimits {written : List Logged} (h : j.Inv L written) :
    j.Delimits L (j.liveIds (j.pending written)) := by
  have hcore := h.core
  have htotal := h.total
  generalize j.pending written = P at hcore htotal
  have hsub : (P.filter fun p => j.live p.id).Sublist P := filter_sublist
  have hrecord : ∀ p ∈ P.filter (fun p => j.live p.id),
      (j.entry p.id).start = p.start ∧ (j.entry p.id).length = p.size L :=
    fun p hp => hcore.record p (hsub.subset hp)
  have hhead : (j.liveIds P).head? = P.head?.map Logged.id := by
    rw [Journal.liveIds, List.head?_map]
    rcases P with _ | ⟨p, P⟩
    · rfl
    · rw [filter_cons_of_pos (p := fun q : Logged => j.live q.id) (hcore.head p rfl)]
      rfl
  refine
    { list := hcore.list
      live := ?_
      oldest := ?_
      start := ?_
      superBlock := ⟨hcore.superStart, hcore.superEnd, hcore.diskSuper⟩
      clean := ?_
      disjoint := ?_
      used := ?_ }
  · intro id
    rw [Journal.liveIds, mem_map]
    constructor
    · rintro ⟨p, hp, rfl⟩
      simpa [Journal.live] using (mem_filter.mp hp).2
    · intro hlive
      obtain ⟨p, hp, rfl⟩ := hcore.known id (decide_eq_true hlive)
      exact ⟨p, mem_filter.mpr ⟨hp, decide_eq_true hlive⟩, rfl⟩
  · exact pairwise_map.mpr (hcore.sorted.sublist hsub)
  · rw [hhead, hcore.logStart]
    rcases P with _ | ⟨p, P⟩
    · rfl
    · show ((p.start : Nat) : Int) = ((j.entry p.id).start : Int)
      rw [(hcore.record p (mem_cons_self ..)).1]
  · rw [hcore.logStart, Int.ofNat_inj, hcore.start_eq_stop htotal]
    rw [← List.head?_eq_none_iff, ← List.head?_eq_none_iff, hhead, Option.map_eq_none_iff]
  · refine pairwise_map.mpr ?_
    have hpair := (hcore.chain.pairwise_disjoint hcore.total).sublist hsub
    refine hpair.imp_of_mem fun {x y} hx hy hxy => ?_
    rw [(hrecord x hx).1, (hrecord x hx).2, (hrecord y hy).1, (hrecord y hy).2]
    exact hxy
  · rw [hcore.used, Journal.liveIds, map_map]
    exact congrArg List.sum (map_congr_left fun p hp => (hrecord p hp).2.symm)

/-- A log of 2048 blocks. -/
def log2048 : Log where
  fLogSize := 2048
  logOffset := 16
  blockSize := 1024
  fLogSize_pos := by decide
  fLogSize_lt := by decide
  blockSize_words := by decide
  blockSize_pos := by decide

/-- One block is logged; the cache flushes nothing but at `FlushDevice()`. -/
def oneBlock (flushEvents : List CacheEvent) : LogCall where
  values := [5000]
  beyond := fun _ => 0
  contents := fun _ => some fun _ => 7
  events := []
  spaceEvents := []
  flushEvents := flushEvents

theorem EventsOk.nil (L : Log) (j : Journal) : EventsOk L j [] where
  pos := nofun
  notified := fun _ => Nat.zero_le _
  outside := nofun

theorem oneBlock_outside : ∀ value ∈ (oneBlock []).values, ¬ log2048.Contains value := by
  intro value hvalue
  rw [mem_singleton.mp hvalue]
  rintro ⟨-, hlt⟩
  exact absurd hlt (by decide)

end BFS

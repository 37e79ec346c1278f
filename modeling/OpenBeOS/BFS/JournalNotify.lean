import OpenBeOS.BFS.JournalEntries

/-! # What `blockNotify()` keeps

`Journal.Core` is the invariant of the journal: the entries from the oldest live one on follow
each other from `LogStart` to a position, fit into the log, and the list and `fUsed` are those
of the live ones. Each event of the cache keeps it, as long as the last live entry does not retire
before `LogEnd` has reached that position.
-/

namespace BFS

open LinkedList Circular Function List

/-- The entry still has unflushed blocks. -/
def Journal.live (j : Journal) (id : Nat) : Bool := 0 < (j.entry id).cached_blocks

/-- Of the entries written so far, those from the oldest live one on. -/
def Journal.pending (j : Journal) (written : List Logged) : List Logged :=
  written.dropWhile fun p => !j.live p.id

/-- The addresses of the live entries among `P`. -/
def Journal.liveIds (j : Journal) (P : List Logged) : List Nat :=
  (P.filter fun p => j.live p.id).map Logged.id

/-- The entries `P` lie in the log from `LogStart` to `stop`. -/
structure Journal.Core (L : Log) (j : Journal) (P : List Logged) (stop : Nat) : Prop where
  chain : Chain L.fLogSize Logged.start (Logged.size L) P stop
  stop_lt : stop < L.fLogSize
  total : (P.map (Logged.size L)).sum ≤ L.fLogSize
  logStart : j.LogStart = (first Logged.start P stop : Nat)
  superStart : j.superBlock.log_start = j.LogStart
  superEnd : j.superBlock.log_end = j.LogEnd
  diskSuper : j.diskSuperBlock = j.superBlock
  head : ∀ p, P.head? = some p → j.live p.id = true
  list : j.fEntries.IsList (j.liveIds P)
  record : ∀ p ∈ P, (j.entry p.id).start = p.start ∧ (j.entry p.id).length = p.size L
  known : ∀ id, j.live id = true → ∃ p ∈ P, p.id = id
  sorted : P.Pairwise fun p q => p.id < q.id
  used : j.fUsed = ((P.filter fun p => j.live p.id).map (Logged.size L)).sum
  cached : ∀ id, (j.entry id).cached_blocks < 2 ^ 32
  inLog : ∀ p ∈ P, p.InLog L j.disk

/-! ## Lists -/

theorem dropWhile_dropWhile {α : Type} {p q : α → Bool} (h : ∀ x, p x = true → q x = true) :
    ∀ xs : List α, (xs.dropWhile p).dropWhile q = xs.dropWhile q
  | [] => rfl
  | x :: xs => by
    by_cases hp : p x = true
    · rw [dropWhile_cons_of_pos hp, dropWhile_cons_of_pos (h x hp)]
      exact dropWhile_dropWhile h xs
    · rw [dropWhile_cons_of_neg hp]

theorem filter_dropWhile_not {α : Type} (p : α → Bool) :
    ∀ xs : List α, (xs.dropWhile fun x => !p x).filter p = xs.filter p
  | [] => rfl
  | x :: xs => by
    by_cases hp : p x = true
    · rw [dropWhile_cons_of_neg (by simp [hp])]
    · rw [dropWhile_cons_of_pos (by simpa using hp), filter_cons_of_neg hp]
      exact filter_dropWhile_not p xs

theorem head?_dropWhile_not {α : Type} (p : α → Bool) :
    ∀ xs : List α, (xs.dropWhile fun x => !p x).head? = (xs.filter p).head?
  | [] => rfl
  | x :: xs => by
    by_cases hp : p x = true
    · rw [dropWhile_cons_of_neg (by simp [hp]), filter_cons_of_pos hp]
      rfl
    · rw [dropWhile_cons_of_pos (by simpa using hp), filter_cons_of_neg hp]
      exact head?_dropWhile_not p xs

theorem first_eq_of_head? {xs : List Logged} {p : Logged} {stop : Nat}
    (h : xs.head? = some p) : first Logged.start xs stop = p.start := by
  cases xs with
  | nil => cases h
  | cons x xs =>
    cases h
    rfl

/-! ## The fields after `blockNotify()` -/

section Fields

variable (L : Log) (j : Journal) (id numBlocks : Nat)

theorem blockNotify_entry (h : numBlocks ≤ (j.entry id).cached_blocks)
    (h' : (j.entry id).cached_blocks < 2 ^ 32) (hpos : 0 < numBlocks) :
    (j.blockNotify L id numBlocks).entry = update j.entry id
      { j.entry id with cached_blocks := (j.entry id).cached_blocks - numBlocks } := by
  have hcount : ((j.entry id).cached_blocks + (2 ^ 32 - numBlocks % 2 ^ 32)) % 2 ^ 32 =
      (j.entry id).cached_blocks - numBlocks := by omega
  simp only [Journal.blockNotify, hcount]
  split
  · rfl
  · split <;> rfl

theorem blockNotify_live (h : numBlocks ≤ (j.entry id).cached_blocks)
    (h' : (j.entry id).cached_blocks < 2 ^ 32) (hpos : 0 < numBlocks) (x : Nat) :
    (j.blockNotify L id numBlocks).live x =
      if x = id then decide (numBlocks < (j.entry id).cached_blocks) else j.live x := by
  rw [Journal.live, blockNotify_entry L j id numBlocks h h' hpos, update_apply]
  by_cases hx : x = id
  · rw [if_pos hx, if_pos hx]
    show decide (0 < (j.entry id).cached_blocks - numBlocks) = _
    rw [decide_eq_decide]
    omega
  · rw [if_neg hx, if_neg hx]
    rfl

theorem blockNotify_frame : (j.blockNotify L id numBlocks).LogEnd = j.LogEnd ∧
      (j.blockNotify L id numBlocks).disk = j.disk ∧
      (j.blockNotify L id numBlocks).fresh = j.fresh := by
  simp only [Journal.blockNotify]
  split
  · exact ⟨rfl, rfl, rfl⟩
  · split <;> exact ⟨rfl, rfl, rfl⟩

theorem blockNotify_more (h : numBlocks < (j.entry id).cached_blocks)
    (h' : (j.entry id).cached_blocks < 2 ^ 32) (hpos : 0 < numBlocks) :
    j.blockNotify L id numBlocks = { j with
      entry := update j.entry id
        { j.entry id with cached_blocks := (j.entry id).cached_blocks - numBlocks } } := by
  have hcount : ((j.entry id).cached_blocks + (2 ^ 32 - numBlocks % 2 ^ 32)) % 2 ^ 32 =
      (j.entry id).cached_blocks - numBlocks := by omega
  simp only [Journal.blockNotify, hcount]
  rw [if_pos (by omega)]

theorem blockNotify_inner (h : numBlocks = (j.entry id).cached_blocks)
    (hhead : j.fEntries.next .first ≠ .node id) :
    (j.blockNotify L id numBlocks).LogStart = j.LogStart ∧
      (j.blockNotify L id numBlocks).superBlock = j.superBlock ∧
      (j.blockNotify L id numBlocks).diskSuperBlock = j.diskSuperBlock ∧
      (j.blockNotify L id numBlocks).fEntries = j.fEntries.remove id ∧
      (j.blockNotify L id numBlocks).fUsed =
        (j.fUsed + (2 ^ 32 - (j.entry id).length % 2 ^ 32)) % 2 ^ 32 := by
  have hcount : ((j.entry id).cached_blocks + (2 ^ 32 - numBlocks % 2 ^ 32)) % 2 ^ 32 = 0 := by
    omega
  simp only [Journal.blockNotify, hcount, gt_iff_lt, lt_self_iff_false, if_false, hhead, decide_false,
    Bool.false_eq_true]
  exact ⟨trivial, trivial, trivial, trivial, trivial⟩

/-- The first entry of the list retires. -/
theorem blockNotify_head (h : numBlocks = (j.entry id).cached_blocks)
    (hhead : j.fEntries.next .first = .node id) {logStart : Int}
    (hstart : logStart = match j.fEntries.nextNode id with
      | some next => Int.tmod (j.superBlock.log_start +
          (((j.entry next).start : Int) - (j.entry id).start)) L.fLogSize
      | none => j.LogEnd) (hne : j.fEntries.nextNode id ≠ some id) :
    (j.blockNotify L id numBlocks).LogStart = logStart ∧
      (j.blockNotify L id numBlocks).superBlock.log_start = logStart ∧
      (j.blockNotify L id numBlocks).superBlock.log_end = j.superBlock.log_end ∧
      (j.blockNotify L id numBlocks).diskSuperBlock = (j.blockNotify L id numBlocks).superBlock ∧
      (j.blockNotify L id numBlocks).fEntries = j.fEntries.remove id ∧
      (j.blockNotify L id numBlocks).fUsed =
        (j.fUsed + (2 ^ 32 - (j.entry id).length % 2 ^ 32)) % 2 ^ 32 := by
  have hcount : ((j.entry id).cached_blocks + (2 ^ 32 - numBlocks % 2 ^ 32)) % 2 ^ 32 = 0 := by
    omega
  have hvalue : (match j.fEntries.nextNode id with
      | some next => Int.tmod (j.superBlock.log_start +
          (((update j.entry id { j.entry id with cached_blocks := 0 }) next).start -
            ((j.entry id).start : Int))) L.fLogSize
      | none => (j.LogEnd : Int)) = logStart := by
    rw [hstart]
    cases hnext : j.fEntries.nextNode id with
    | none => rfl
    | some next =>
      have hn : next ≠ id := fun hn => hne (by rw [hnext, hn])
      simp only [update_of_ne hn]
  simp only [Journal.blockNotify, hcount, gt_iff_lt, lt_self_iff_false, if_false, hhead, decide_true,
    if_true, Journal.WriteSuperBlock]
  exact ⟨hvalue, hvalue, trivial, trivial, trivial, trivial⟩

end Fields

/-! ## The live entries -/

variable {L : Log} {j : Journal} {P : List Logged} {stop : Nat}

section

variable (h : j.Core L P stop) {a b : List Logged} {p : Logged} (hP : P = a ++ p :: b)
include h hP

theorem Journal.Core.ids_ne : (∀ q ∈ a, q.id ≠ p.id) ∧ ∀ q ∈ b, q.id ≠ p.id := by
  have hsorted := h.sorted
  rw [hP, pairwise_append, pairwise_cons] at hsorted
  obtain ⟨-, ⟨hb, -⟩, ha⟩ := hsorted
  exact ⟨fun q hq => Nat.ne_of_lt (ha q hq p (mem_cons_self ..)),
    fun q hq => (Nat.ne_of_lt (hb q hq)).symm⟩

theorem Journal.Core.next_first (hp : j.live p.id = true) :
    (j.fEntries.next .first = .node p.id ↔ a = []) := by
  rw [h.list.next_first_iff, Journal.liveIds, List.head?_map, ← head?_dropWhile_not]
  rcases a with _ | ⟨q, a⟩
  · rw [hP, nil_append, dropWhile_cons_of_neg (by simp [hp])]
    simp
  · have hq : j.live q.id = true := h.head q (by rw [hP]; rfl)
    have hne := (h.ids_ne hP).1 q (mem_cons_self ..)
    rw [hP, cons_append, dropWhile_cons_of_neg (by simp [hq])]
    simp [hne]

theorem Journal.Core.filter_retire {live' : Nat → Bool}
    (hlive' : ∀ x, live' x = if x = p.id then false else j.live x) :
    P.filter (fun q => live' q.id) =
      a.filter (fun q => j.live q.id) ++ b.filter (fun q => j.live q.id) := by
  obtain ⟨ha, hb⟩ := h.ids_ne hP
  rw [hP, filter_append, filter_cons_of_neg (by simp [hlive'])]
  congr 1
  · refine filter_congr fun q hq => ?_
    rw [hlive', if_neg (ha q hq)]
  · refine filter_congr fun q hq => ?_
    rw [hlive', if_neg (hb q hq)]

end

theorem Journal.Core.filter_eq {j : Journal} {a b : List Logged} {p : Logged}
    (hP : P = a ++ p :: b) (hp : j.live p.id = true) :
    P.filter (fun q => j.live q.id) =
      a.filter (fun q => j.live q.id) ++ p :: b.filter (fun q => j.live q.id) := by
  simp [hP, hp]

theorem sum_size_filter_le (p : Logged → Bool) (xs : List Logged) :
    ((xs.filter p).map (Logged.size L)).sum ≤ (xs.map (Logged.size L)).sum := by
  induction xs with
  | nil => exact Nat.le_refl _
  | cons x xs ih =>
    by_cases hp : p x = true
    · rw [filter_cons_of_pos hp]
      simp only [map_cons, sum_cons]
      omega
    · rw [filter_cons_of_neg hp]
      simp only [map_cons, sum_cons]
      omega

/-! ## Keeping the invariant -/

/-- The entries in the log only change with `live`, and nothing else of the journal. -/
theorem Journal.Core.drop {j' : Journal} (h : j.Core L P stop)
    (hlive : ∀ x, j'.live x = true → j.live x = true)
    (hrecord : ∀ x, (j'.entry x).start = (j.entry x).start ∧ (j'.entry x).length = (j.entry x).length)
    (hcached : ∀ x, (j'.entry x).cached_blocks < 2 ^ 32)
    (hdisk : ∀ p ∈ P, p.InLog L j.disk → p.InLog L j'.disk)
    (hstart : j'.LogStart = (first Logged.start (j'.pending P) stop : Nat))
    (hsuper : j'.superBlock.log_start = j'.LogStart) (hend : j'.superBlock.log_end = j'.LogEnd)
    (hdiskSuper : j'.diskSuperBlock = j'.superBlock)
    (hlist : j'.fEntries.IsList (j'.liveIds P))
    (hused : j'.fUsed = ((P.filter fun p => j'.live p.id).map (Logged.size L)).sum) :
    j'.Core L (j'.pending P) stop := by
  have hsuffix : j'.pending P <:+ P := dropWhile_suffix _
  have hmem : ∀ p ∈ j'.pending P, p ∈ P := fun p hp => hsuffix.subset hp
  have hfilter : (j'.pending P).filter (fun p => j'.live p.id) = P.filter fun p => j'.live p.id :=
    filter_dropWhile_not (fun p => j'.live p.id) P
  obtain ⟨before, hbefore⟩ := hsuffix
  refine
    { chain := ?_
      stop_lt := h.stop_lt
      total := ?_
      logStart := hstart
      superStart := hsuper
      superEnd := hend
      diskSuper := hdiskSuper
      head := ?_
      list := ?_
      record := ?_
      known := ?_
      sorted := ?_
      used := ?_
      cached := hcached
      inLog := fun p hp => hdisk p (hmem p hp) (h.inLog p (hmem p hp)) }
  · have := h.chain
    rw [← hbefore] at this
    exact this.suffix
  · have := h.total
    rw [← hbefore, map_append, sum_append] at this
    omega
  · intro p hp
    have hhead := head?_dropWhile_not (fun p => j'.live p.id) P
    rw [show (P.dropWhile fun x => !j'.live x.id).head? = some p from hp] at hhead
    have hp' : p ∈ P.filter fun p => j'.live p.id := mem_of_head? hhead.symm
    simpa using (mem_filter.mp hp').2
  · rw [Journal.liveIds, hfilter]
    exact hlist
  · intro p hp
    obtain ⟨hs, hl⟩ := hrecord p.id
    rw [hs, hl]
    exact h.record p (hmem p hp)
  · intro id hid
    obtain ⟨p, hp, rfl⟩ := h.known id (hlive id hid)
    have hp' : p ∈ (j'.pending P).filter fun p => j'.live p.id := by
      rw [hfilter]
      exact mem_filter.mpr ⟨hp, by simpa using hid⟩
    exact ⟨p, (mem_filter.mp hp').1, rfl⟩
  · have := h.sorted
    rw [← hbefore] at this
    exact (pairwise_append.mp this).2.1
  · rw [hfilter]
    exact hused

/-- **`blockNotify()` keeps the invariant**, for a call that notifies of unflushed blocks; the last
live entry may only retire when `LogEnd` is the end of the entries. -/
theorem Journal.Core.notify (h : j.Core L P stop) {id numBlocks : Nat} (hpos : 0 < numBlocks)
    (hle : numBlocks ≤ (j.entry id).cached_blocks)
    (hlast : (∀ p ∈ P, (j.blockNotify L id numBlocks).live p.id = false) → j.LogEnd = stop) :
    (j.blockNotify L id numBlocks).Core L ((j.blockNotify L id numBlocks).pending P) stop := by
  have hcached := h.cached id
  have hlive' := blockNotify_live L j id numBlocks hle hcached hpos
  have hentry := blockNotify_entry L j id numBlocks hle hcached hpos
  obtain ⟨hlogEnd, hdisk, -⟩ := blockNotify_frame L j id numBlocks
  have hidlive : j.live id = true := by
    rw [Journal.live, decide_eq_true_eq]
    omega
  obtain ⟨p, hp, rfl⟩ := h.known id hidlive
  obtain ⟨a, b, hP⟩ := append_of_mem hp
  have hrecord : ∀ x, ((j.blockNotify L p.id numBlocks).entry x).start = (j.entry x).start ∧
      ((j.blockNotify L p.id numBlocks).entry x).length = (j.entry x).length := by
    intro x
    rw [hentry, update_apply]
    split
    · next hx => rw [hx]; exact ⟨rfl, rfl⟩
    · exact ⟨rfl, rfl⟩
  have hcached' : ∀ x, ((j.blockNotify L p.id numBlocks).entry x).cached_blocks < 2 ^ 32 := by
    intro x
    rw [hentry, update_apply]
    split
    · exact Nat.lt_of_le_of_lt (Nat.sub_le _ _) hcached
    · exact h.cached x
  have hmono : ∀ x, (j.blockNotify L p.id numBlocks).live x = true → j.live x = true := by
    intro x hx
    rw [hlive'] at hx
    split at hx
    · next heq => rw [heq]; exact hidlive
    · exact hx
  have hinLog : ∀ q ∈ P, q.InLog L j.disk → q.InLog L (j.blockNotify L p.id numBlocks).disk := by
    intro q _ hq
    rw [hdisk]
    exact hq
  rcases Nat.lt_or_ge numBlocks (j.entry p.id).cached_blocks with hlt | hge
  · -- the entry stays live, and with it all the others
    have hsame : ∀ x, (j.blockNotify L p.id numBlocks).live x = j.live x := by
      intro x
      rw [hlive']
      split
      · next heq => rw [heq, hidlive]; exact decide_eq_true hlt
      · rfl
    have hfilter : (P.filter fun q => (j.blockNotify L p.id numBlocks).live q.id) =
        P.filter fun q => j.live q.id := filter_congr fun q _ => hsame q.id
    have hpending : (j.blockNotify L p.id numBlocks).pending P = P := by
      rcases P with _ | ⟨q, Q⟩
      · rfl
      · refine dropWhile_cons_of_neg ?_
        rw [hsame, h.head q rfl]
        decide
    have hmore := blockNotify_more L j p.id numBlocks hlt hcached hpos
    refine h.drop hmono hrecord hcached' hinLog ?_ ?_ ?_ ?_ ?_ ?_
    · rw [hpending, hmore]
      exact h.logStart
    · rw [hmore]
      exact h.superStart
    · rw [hmore]
      exact h.superEnd
    · rw [hmore]
      exact h.diskSuper
    · rw [Journal.liveIds, hfilter, hmore]
      exact h.list
    · rw [hfilter, hmore]
      exact h.used
  have heq : numBlocks = (j.entry p.id).cached_blocks := Nat.le_antisymm hle hge
  have hretire : ∀ x, (j.blockNotify L p.id numBlocks).live x =
      if x = p.id then false else j.live x := by
    intro x
    rw [hlive', decide_eq_false (by omega)]
  have hfilter' := h.filter_retire hP hretire
  have hfilter := Journal.Core.filter_eq hP hidlive
  -- the list and `fUsed` lose the entry
  have hids : j.liveIds P = j.liveIds a ++ p.id :: j.liveIds b := by
    rw [Journal.liveIds, hfilter, map_append]
    rfl
  have hids' : (j.blockNotify L p.id numBlocks).liveIds P = j.liveIds a ++ j.liveIds b := by
    rw [Journal.liveIds, hfilter', map_append]
    rfl
  have hlist := h.list
  rw [hids] at hlist
  have hremove : (j.fEntries.remove p.id).IsList ((j.blockNotify L p.id numBlocks).liveIds P) := by
    rw [hids']
    exact hlist.remove
  have hlength := (h.record p hp).2
  have hused : (j.fUsed + (2 ^ 32 - (j.entry p.id).length % 2 ^ 32)) % 2 ^ 32 =
      ((P.filter fun q => (j.blockNotify L p.id numBlocks).live q.id).map (Logged.size L)).sum := by
    have hsum := h.used
    have hbound := sum_size_filter_le (L := L) (fun q => j.live q.id) P
    have htotal := h.total
    have hsize := L.fLogSize_lt
    rw [hfilter']
    rw [hfilter, map_append, sum_append, map_cons, sum_cons] at hsum hbound
    rw [map_append, sum_append, hlength]
    omega
  by_cases ha : a = []
  · have hhead := (h.next_first hP hidlive).mpr ha
    subst ha
    rw [nil_append] at hP
    rw [filter_nil, nil_append] at hfilter'
    have hnextId : j.fEntries.nextNode p.id = (j.liveIds b).head? :=
      @Links.IsList.nextNode_eq _ _ _ (j.liveIds []) _ _ hlist
    have hheadP := head?_dropWhile_not (fun q => (j.blockNotify L p.id numBlocks).live q.id) P
    rw [hfilter'] at hheadP
    have hstartP := h.superStart.trans (h.logStart.trans (by rw [hP]))
    have hprecord := (h.record p hp).1
    -- the next live entry is the first of those that are pending now
    have hstart : ((first Logged.start ((j.blockNotify L p.id numBlocks).pending P) stop : Nat) : Int) =
        match j.fEntries.nextNode p.id with
        | some next => Int.tmod (j.superBlock.log_start +
            (((j.entry next).start : Int) - (j.entry p.id).start)) L.fLogSize
        | none => j.LogEnd := by
      rcases hb : b.filter (fun q => j.live q.id) with _ | ⟨q, Q⟩
      · have hnone : j.fEntries.nextNode p.id = none := by
          rw [hnextId, Journal.liveIds, hb]
          rfl
        have hempty : (j.blockNotify L p.id numBlocks).pending P = [] := by
          rw [hb] at hheadP
          exact List.head?_eq_none_iff.mp hheadP
        have hall : ∀ q ∈ P, (j.blockNotify L p.id numBlocks).live q.id = false := by
          intro q hq
          have hnil : P.filter (fun q => (j.blockNotify L p.id numBlocks).live q.id) = [] := by
            rw [hfilter', hb]
          simpa using filter_eq_nil_iff.mp hnil q hq
        rw [hnone, hempty]
        show ((stop : Nat) : Int) = (j.LogEnd : Int)
        rw [hlast hall]
      · have hsome : j.fEntries.nextNode p.id = some q.id := by
          rw [hnextId, Journal.liveIds, hb]
          rfl
        have hfirst : ((j.blockNotify L p.id numBlocks).pending P).head? = some q := by
          rw [hb] at hheadP
          exact hheadP
        have hq : q ∈ P := by
          have hqb : q ∈ b.filter (fun q => j.live q.id) := by
            rw [hb]
            exact mem_cons_self ..
          rw [hP]
          exact mem_cons_of_mem _ (mem_filter.mp hqb).1
        have hlt : q.start < L.fLogSize := by
          obtain ⟨c, d, hcd⟩ := append_of_mem hq
          have := h.chain
          rw [hcd] at this
          exact this.suffix.1
        rw [hsome, first_eq_of_head? hfirst]
        simp only [hstartP, hprecord, (h.record q hq).1]
        have hcancel : (p.start : Int) + ((q.start : Int) - p.start) = q.start := by omega
        show (q.start : Int) = Int.tmod ((p.start : Int) + ((q.start : Int) - p.start)) L.fLogSize
        rw [hcancel, Int.tmod_eq_emod_of_nonneg (by omega)]
        exact (Int.emod_eq_of_lt (by omega) (by omega)).symm
    have hself : j.fEntries.nextNode p.id ≠ some p.id := by
      intro hself
      rw [hnextId] at hself
      have hmem : p.id ∈ j.liveIds b := mem_of_head? hself
      obtain ⟨q, hq, hqid⟩ := mem_map.mp hmem
      exact (h.ids_ne (a := []) hP).2 q (mem_filter.mp hq).1 hqid
    obtain ⟨hls, hss, hse, hds, hfe, hfu⟩ :=
      blockNotify_head L j p.id numBlocks heq hhead hstart hself
    refine h.drop hmono hrecord hcached' hinLog hls ?_ ?_ hds ?_ ?_
    · rw [hss, hls]
    · rw [hse, hlogEnd]
      exact h.superEnd
    · rw [hfe]
      exact hremove
    · rw [hfu]
      exact hused
  · have hhead := mt (h.next_first hP hidlive).mp ha
    obtain ⟨hls, hsb, hds, hfe, hfu⟩ := blockNotify_inner L j p.id numBlocks heq hhead
    -- an older entry is live, and stays the first
    have hpending : (j.blockNotify L p.id numBlocks).pending P = P := by
      rcases a with _ | ⟨q, a⟩
      · exact absurd rfl ha
      · have hq : j.live q.id = true := h.head q (by rw [hP]; rfl)
        have hne := (h.ids_ne hP).1 q (mem_cons_self ..)
        rw [hP]
        refine dropWhile_cons_of_neg ?_
        rw [hretire, if_neg hne, hq]
        decide
    refine h.drop hmono hrecord hcached' hinLog ?_ ?_ ?_ ?_ ?_ ?_
    · rw [hls, hpending]
      exact h.logStart
    · rw [hsb, hls]
      exact h.superStart
    · rw [hsb, hlogEnd]
      exact h.superEnd
    · rw [hds, hsb]
      exact h.diskSuper
    · rw [hfe]
      exact hremove
    · rw [hfu]
      exact hused

end BFS

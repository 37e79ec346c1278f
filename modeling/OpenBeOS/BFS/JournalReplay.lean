import OpenBeOS.BFS.JournalRun

/-! # Replaying what has been logged

`ReplayLogEntry()` reads an entry back the way `WriteLogEntry()` has written it, as long as the
entry's array does not go around the end of the log. From entry to entry, `ReplayLog()` then
arrives at `log_end`.
-/

namespace BFS

open LinkedList Circular Function List

/-- Writes home what an entry has logged for the blocks. -/
def Logged.replay (p : Logged) (values : List Int) (disk : Disk) : Disk :=
  values.foldl (fun disk value => update disk value (p.content value)) disk

/-- The entry can be replayed: its array does not go around the end of the log, its blocks could be
read, and the log is not logged. -/
structure Logged.Replayable (L : Log) (p : Logged) : Prop where
  values : p.values ≠ []
  start_lt : p.start < L.fLogSize
  size_lt : p.size L < L.fLogSize
  array : p.start + L.BlocksUsed p.values.length ≤ L.fLogSize
  outside : ∀ value ∈ p.values, ¬ L.Contains value

variable {L : Log} {p : Logged}

/-! ## Writing home -/

variable {before rest : List Int} {disk : Disk} {value : Int} {b : Int}

theorem Logged.replay_other (p : Logged) :
    ∀ (values : List Int) (disk : Disk), b ∉ values → p.replay values disk b = disk b
  | [], _, _ => rfl
  | value :: values, disk, h => by
    rw [mem_cons, not_or] at h
    rw [Logged.replay, foldl_cons, ← Logged.replay, p.replay_other values _ h.2]
    exact update_of_ne h.1 ..

theorem Logged.replay_mem (p : Logged) :
    ∀ (values : List Int) (disk : Disk), b ∈ values → p.replay values disk b = p.content b
  | value :: values, disk, h => by
    rw [Logged.replay, foldl_cons, ← Logged.replay]
    by_cases hmem : b ∈ values
    · exact p.replay_mem values _ hmem
    · rcases mem_cons.mp h with rfl | hb
      · rw [p.replay_other values _ hmem]
        exact update_self ..
      · exact absurd hb hmem

theorem Logged.InLog.replay {q : Logged} (h : q.InLog L disk) {values : List Int}
    (hout : ∀ value ∈ values, ¬ L.Contains value) : q.InLog L (p.replay values disk) := by
  intro k hk
  rw [p.replay_other values disk fun hmem => hout _ hmem (L.contains_position _)]
  exact h k hk

/-! ## One entry -/

theorem array_eq (hvalues : p.values = before ++ value :: rest)
    {a index : Nat} (hindex : a * L.valuesInBlock + index = before.length + 1) :
    p.array L a index = value := by
  rw [Logged.array, hindex, arrayMemory, hvalues]
  simp

theorem block_eq
    (hvalues : p.values = before ++ value :: rest) :
    p.block L (L.BlocksUsed p.values.length + before.length) = p.content value := by
  rw [Logged.block, if_neg (by omega), Nat.add_sub_cancel_left]
  rw [hvalues]
  simp

/-- How far the replay of an entry has come: the values `before` are written home, and only blocks
of the log have been read. -/
structure Replaying (L : Log) (p : Logged) (disk : Disk) (before rest : List Int)
    (blockNumber : Nat) (r : Replay) : Prop where
  values : p.values = before ++ rest
  blockNumber : blockNumber = (p.start + L.BlocksUsed p.values.length + before.length) % L.fLogSize
  disk : r.disk = p.replay before disk
  inLog : p.InLog L r.disk
  reads : ∀ b ∈ r.reads, L.Contains b

/-- One block is written home. -/
theorem Replaying.next {blockNumber : Nat}
    {r : Replay} (h : Replaying L p disk before (value :: rest) blockNumber r)
    (hp : p.Replayable L) :
    Replaying L p disk (before ++ [value]) rest ((blockNumber + 1) % L.fLogSize)
      { disk := update r.disk value (r.disk (L.logOffset + blockNumber))
        reads := r.reads ++ [L.logOffset + blockNumber] } := by
  have hposition : L.logOffset + (blockNumber : Int) =
      L.position (p.start + (L.BlocksUsed p.values.length + before.length)) := by
    rw [Log.position, h.blockNumber, Nat.add_assoc]
  have hlen : L.BlocksUsed p.values.length + before.length < p.size L := by
    have := congrArg List.length h.values
    rw [length_append, length_cons] at this
    rw [Logged.size, Log.TransactionSize]
    omega
  have hcopy : r.disk (L.logOffset + blockNumber) = p.content value := by
    rw [hposition, h.inLog _ hlen, block_eq h.values]
  have hmem : value ∈ p.values := by
    rw [h.values]
    exact mem_append_right _ (mem_cons_self ..)
  refine ⟨?_, ?_, ?_, ?_, ?_⟩
  · rw [h.values, append_assoc]
    rfl
  · rw [h.blockNumber, Nat.mod_add_mod, length_append, length_singleton, Nat.add_assoc]
  · show update r.disk value _ = _
    rw [hcopy, h.disk, Logged.replay, Logged.replay, foldl_append]
    rfl
  · intro k hk
    show update r.disk value _ (L.position (p.start + k)) = _
    rw [update_of_ne]
    · exact h.inLog k hk
    · intro heq
      rw [← heq] at hmem
      exact hp.outside _ hmem (L.contains_position _)
  · intro b hb
    rcases mem_append.mp hb with hb | hb
    · exact h.reads b hb
    · rw [mem_singleton.mp hb, hposition]
      exact L.contains_position _

/-- **The inner loop of `ReplayLogEntry()`** replays the values of the array's block. -/
theorem replayBlocks_spec (hp : p.Replayable L) {a : Nat} :
    ∀ (m index : Nat) (before rest : List Int) (blockNumber : Nat) (r : Replay),
      Replaying L p disk before rest blockNumber r →
      a * L.valuesInBlock + index = before.length + 1 →
      Replaying L p disk (before ++ rest.take m) (rest.drop m)
          (replayBlocks L (p.array L a) m index rest.length blockNumber r).2.1
          (replayBlocks L (p.array L a) m index rest.length blockNumber r).2.2 ∧
        (replayBlocks L (p.array L a) m index rest.length blockNumber r).1 =
          if m ≤ rest.length then ((rest.drop m).length : Int) else -1
  | 0, index, before, rest, blockNumber, r, h, _ => by
    rw [take_zero, append_nil, drop_zero, if_pos (Nat.zero_le _)]
    exact ⟨h, rfl⟩
  | m + 1, index, before, [], blockNumber, r, h, _ => by
    rw [take_nil, append_nil, drop_nil, if_neg (by simp)]
    exact ⟨h, rfl⟩
  | m + 1, index, before, value :: rest, blockNumber, r, h, hindex => by
    obtain ⟨hnext, hcount⟩ := replayBlocks_spec hp (a := a) m (index + 1) (before ++ [value]) rest
      ((blockNumber + 1) % L.fLogSize) _ (h.next hp) (by
        rw [length_append, length_singleton]
        omega)
    have hpos : ((value :: rest).length : Int) > 0 := by
      rw [length_cons]
      omega
    have hless : ((value :: rest).length : Int) - 1 = (rest.length : Int) := by
      rw [length_cons]
      omega
    rw [replayBlocks, if_pos hpos, hless, array_eq h.values hindex]
    rw [take_succ_cons, drop_succ_cons]
    rw [append_assoc] at hnext
    refine ⟨hnext, hcount.trans ?_⟩
    rw [length_cons]
    by_cases hm : m ≤ rest.length
    · rw [if_pos hm, if_pos (Nat.succ_le_succ hm)]
    · rw [if_neg hm, if_neg (by omega)]

/-- What is left after `a` blocks of the array: all of it has been replayed, or the next value is
the first one of block `a`. -/
def ArrayLeft (L : Log) (p : Logged) (a : Nat) (before rest : List Int) (count : Int) : Prop :=
  (rest = [] ∧ count ≤ 0 ∧ a = L.BlocksUsed p.values.length) ∨
    (rest ≠ [] ∧ count = rest.length ∧ before.length + 1 = a * L.valuesInBlock ∧
      a < L.BlocksUsed p.values.length)

/-- Block `a` of the array, from an index on, is replayed with what is left in it. -/
theorem arrayLeft_next {a m : Nat} {count : Int}
    (hvalues : p.values = before ++ rest) (ha : a < L.BlocksUsed p.values.length)
    (hm : before.length + 1 + m = (a + 1) * L.valuesInBlock)
    (hcount : count = if m ≤ rest.length then ((rest.drop m).length : Int) else -1) :
    ArrayLeft L p (a + 1) (before ++ rest.take m) (rest.drop m) count := by
  obtain ⟨hhigh, hlow, -⟩ := L.blocksUsed_spec p.values.length
  have hlen := congrArg List.length hvalues
  rw [length_append] at hlen
  rcases Nat.lt_or_ge m rest.length with hlt | hge
  · right
    have hdrop : rest.drop m ≠ [] := by
      rw [Ne, drop_eq_nil_iff]
      omega
    refine ⟨hdrop, ?_, ?_, ?_⟩
    · rw [hcount, if_pos (Nat.le_of_lt hlt)]
    · rw [length_append, length_take, Nat.min_eq_left (Nat.le_of_lt hlt)]
      omega
    · -- a block that is not the last one is full
      by_contra hnot
      have hmul : L.BlocksUsed p.values.length * L.valuesInBlock ≤ (a + 1) * L.valuesInBlock :=
        Nat.mul_le_mul_right _ (Nat.le_of_not_lt hnot)
      omega
  · left
    refine ⟨drop_eq_nil_of_le hge, ?_, ?_⟩
    · rw [hcount, drop_eq_nil_of_le hge]
      split <;> simp
    · have hmul : (L.BlocksUsed p.values.length - 1) * L.valuesInBlock <
          (a + 1) * L.valuesInBlock := by omega
      have := Nat.lt_of_mul_lt_mul_right hmul
      omega

theorem nextArrayBlock_eq (hp : p.Replayable L) {a : Nat}
    (ha : a < L.BlocksUsed p.values.length) :
    nextArrayBlock L (L.logOffset + p.start + a) = L.logOffset + p.start + (a + 1 : Nat) := by
  have := hp.array
  rw [nextArrayBlock, if_neg (by omega)]
  omega

/-- **The outer loop** replays the blocks of the array that are left. -/
theorem replayArrayBlocks_spec (hp : p.Replayable L) :
    ∀ (n a : Nat) (before rest : List Int) (start count : Int) (blockNumber : Nat) (r : Replay),
      rest.length ≤ n → Replaying L p disk before rest blockNumber r →
      ArrayLeft L p a before rest count →
      ∃ blockNumber', Replaying L p disk p.values [] blockNumber'
          (replayArrayBlocks L n (L.logOffset + p.start + a) start count blockNumber r).2 ∧
        (replayArrayBlocks L n (L.logOffset + p.start + a) start count blockNumber r).1 =
          start + (L.BlocksUsed p.values.length - a : Int)
  | n, a, before, rest, start, count, blockNumber, r, hn, h, .inl ⟨hrest, hcount, ha⟩ => by
    have heq : replayArrayBlocks L n (L.logOffset + p.start + a) start count blockNumber r =
        (start, r) := by
      cases n with
      | zero => rfl
      | succ n => rw [replayArrayBlocks, if_neg (by omega)]
    have hvalues := h.values
    rw [hrest, append_nil] at hvalues
    rw [heq, ha]
    rw [hrest, ← hvalues] at h
    exact ⟨blockNumber, h, by omega⟩
  | 0, _, _, rest, _, _, _, _, hn, _, .inr ⟨hrest, _⟩ => by
    rw [Nat.le_zero, length_eq_zero_iff] at hn
    exact absurd hn hrest
  | n + 1, a, before, rest, start, count, blockNumber, r, hn, h, .inr ⟨hrest, hcount, hindex, ha⟩ => by
    have hpos := length_pos_iff.mpr hrest
    have hV := L.one_lt_valuesInBlock
    have hblocks : a < p.size L := by
      rw [Logged.size, Log.TransactionSize]
      omega
    have hposition : L.logOffset + (p.start : Int) + a = L.position (p.start + a) := by
      have := hp.array
      rw [L.position_eq_of_lt (by omega)]
      omega
    have harray : r.disk (L.logOffset + p.start + a) = p.array L a := by
      rw [hposition, h.inLog a hblocks, Logged.block, if_pos ha]
    have hread : Replaying L p disk before rest blockNumber
        { r with reads := r.reads ++ [L.logOffset + p.start + a] } := by
      refine { h with reads := fun b hb => ?_ }
      rcases mem_append.mp hb with hb | hb
      · exact h.reads b hb
      · rw [mem_singleton.mp hb, hposition]
        exact L.contains_position _
    obtain ⟨hinner, hcount'⟩ := replayBlocks_spec hp (a := a) L.valuesInBlock 0 before rest
      blockNumber _ hread (by omega)
    have hleft := arrayLeft_next h.values ha (by rw [Nat.add_mul]; omega) hcount'
    rw [replayArrayBlocks, if_pos (by omega), hcount, harray, nextArrayBlock_eq hp ha]
    obtain ⟨bn, hdone, hstart⟩ := replayArrayBlocks_spec hp n (a + 1) _ _ (start + 1) _ _ _
      (by rw [length_drop]; omega) hinner hleft
    refine ⟨bn, hdone, hstart.trans ?_⟩
    omega

/-- **`ReplayLogEntry()`** writes home all blocks of an entry the log holds. -/
theorem replayLogEntry_spec (hp : p.Replayable L) {r : Replay} (hinLog : p.InLog L r.disk)
    (hreads : ∀ b ∈ r.reads, L.Contains b) :
    (ReplayLogEntry L p.start r).1 = .B_OK ∧
      (ReplayLogEntry L p.start r).2.1 = (p.start + p.size L : Nat) ∧
      (ReplayLogEntry L p.start r).2.2.disk = p.replay p.values r.disk ∧
      (∀ b ∈ (ReplayLogEntry L p.start r).2.2.reads, L.Contains b) := by
  have hlog := L.fLogSize_lt
  have hstart := hp.start_lt
  have harrays := hp.array
  have hsize := hp.size_lt
  have hpos := length_pos_iff.mpr hp.values
  obtain ⟨-, -, hused⟩ := L.blocksUsed_spec p.values.length
  rw [Logged.size, Log.TransactionSize] at hsize
  have hV := L.one_lt_valuesInBlock
  have hblock : (p.start : Int) % 2 ^ 32 % L.fLogSize + L.logOffset = L.logOffset + p.start + (0 : Nat) := by
    rw [Int.emod_eq_of_lt (by omega) (by omega), Int.emod_eq_of_lt (by omega) (by omega)]
    omega
  have hposition : L.logOffset + (p.start : Int) + (0 : Nat) = L.position (p.start + 0) := by
    rw [L.position_eq_of_lt (by omega)]
    omega
  have harray : r.disk (L.logOffset + p.start + (0 : Nat)) = p.array L 0 := by
    rw [hposition, hinLog 0 (p.size_pos L), Logged.block, if_pos hused]
  have hcount : Int.bmod (p.array L 0 0) (2 ^ 32) = p.values.length := by
    have hword : p.array L 0 0 = p.values.length := by
      rw [Logged.array, Nat.zero_mul]
      rfl
    rw [hword]
    exact Int.bmod_eq_of_le (by omega) (by omega)
  have hnumber : (((p.start : Int) + (L.BlocksUsed p.values.length : Nat)) % 2 ^ 32 %
      L.fLogSize).toNat = (p.start + L.BlocksUsed p.values.length) % L.fLogSize := by
    rw [Int.emod_eq_of_lt (a := (p.start : Int) + (L.BlocksUsed p.values.length : Nat))
      (by omega) (by omega), ← Int.natCast_add, ← Int.natCast_emod, Int.toNat_natCast]
  have hfirst : Replaying L p r.disk [] p.values
      ((p.start + L.BlocksUsed p.values.length) % L.fLogSize)
      { r with reads := r.reads ++ [L.logOffset + p.start + (0 : Nat)] } := by
    refine ⟨rfl, rfl, rfl, hinLog, fun b hb => ?_⟩
    rcases mem_append.mp hb with hb | hb
    · exact hreads b hb
    · rw [mem_singleton.mp hb, hposition]
      exact L.contains_position _
  obtain ⟨hinner, hcount'⟩ := replayBlocks_spec hp (a := 0) (L.valuesInBlock - 1) 1 [] p.values _ _
    hfirst (by rw [Nat.zero_mul]; rfl)
  have hleft := arrayLeft_next (p := p) rfl hused
    (by rw [length_nil, Nat.zero_add, Nat.one_mul]; omega) hcount'
  obtain ⟨bn, hdone, hend⟩ := replayArrayBlocks_spec hp p.values.length 1 _ _
    ((p.start : Int) + p.values.length + 1) _ _ _ (by rw [length_drop]; omega) hinner hleft
  have heq : ReplayLogEntry L p.start r = (.B_OK,
      replayArrayBlocks L p.values.length (L.logOffset + p.start + (1 : Nat))
        ((p.start : Int) + p.values.length + 1)
        (replayBlocks L (p.array L 0) (L.valuesInBlock - 1) 1 p.values.length
          ((p.start + L.BlocksUsed p.values.length) % L.fLogSize)
          { r with reads := r.reads ++ [L.logOffset + p.start + (0 : Nat)] }).1
        (replayBlocks L (p.array L 0) (L.valuesInBlock - 1) 1 p.values.length
          ((p.start + L.BlocksUsed p.values.length) % L.fLogSize)
          { r with reads := r.reads ++ [L.logOffset + p.start + (0 : Nat)] }).2.1
        (replayBlocks L (p.array L 0) (L.valuesInBlock - 1) 1 p.values.length
          ((p.start + L.BlocksUsed p.values.length) % L.fLogSize)
          { r with reads := r.reads ++ [L.logOffset + p.start + (0 : Nat)] }).2.2) := by
    simp only [ReplayLogEntry]
    rw [hblock, harray, hcount, if_neg (by omega), Int.toNat_natCast, hnumber,
      nextArrayBlock_eq hp hused]
  rw [heq]
  refine ⟨rfl, ?_, hdone.disk, hdone.reads⟩
  rw [Logged.size, Log.TransactionSize]
  refine hend.trans ?_
  omega

/-! ## The whole log -/

/-- What the entries have logged, all of it written home. -/
def replayAll (P : List Logged) (disk : Disk) : Disk :=
  P.foldl (fun disk p => p.replay p.values disk) disk

/-- **The loop of `ReplayLog()`** replays the entries from `log_start` on and stops at `log_end`. -/
theorem replayLoop_spec {stop : Nat} (hstop : stop < L.fLogSize) :
    ∀ (P : List Logged) (lastStart : Int) (r : Replay),
      Chain L.fLogSize Logged.start (Logged.size L) P stop →
      (P.map (Logged.size L)).sum < L.fLogSize →
      (∀ p ∈ P, p.Replayable L) → (∀ p ∈ P, p.InLog L r.disk) → (∀ b ∈ r.reads, L.Contains b) →
      (P ≠ [] → lastStart ≠ (first Logged.start P stop : Nat)) →
      ∃ r', replayLoop L stop (P.length + 1) (first Logged.start P stop : Nat) lastStart r =
          some (.B_OK, r') ∧
        r'.disk = replayAll P r.disk ∧ ∀ b ∈ r'.reads, L.Contains b
  | [], lastStart, r, _, _, _, _, hreads, _ => by
    refine ⟨r, ?_, rfl, hreads⟩
    rw [length_nil, replayLoop]
    exact if_pos rfl
  | p :: P, lastStart, r, hchain, htotal, hall, hinLog, hreads, hlast => by
    have hp := hall p (mem_cons_self ..)
    have hpos := p.size_pos L
    rw [map_cons, sum_cons] at htotal
    obtain ⟨hstart, hnext, hrest⟩ := hchain
    obtain ⟨hok, hnew, hdisk, hreads'⟩ := replayLogEntry_spec hp
      (hinLog p (mem_cons_self ..)) hreads
    -- the entry does not fill the log: it does not end where it starts
    have hne : p.start ≠ first Logged.start P stop := by
      have := @mod_ne_of_lt L.fLogSize p.start (p.start + p.size L) (by omega) (by omega)
      rw [Nat.mod_eq_of_lt hstart, hnext] at this
      exact this
    have hnotStop : p.start ≠ stop := by
      have hend := @Chain.stop_eq _ _ _ _ _ hstop (p :: P) ⟨hstart, hnext, hrest⟩
      have := @mod_ne_of_lt L.fLogSize p.start
        (p.start + (p.size L + (P.map (Logged.size L)).sum)) (by omega) (by omega)
      rw [map_cons, sum_cons] at hend
      rw [Nat.mod_eq_of_lt hstart] at this
      rw [hend]
      exact this
    obtain ⟨r', hloop, hdisk', hdone⟩ := replayLoop_spec hstop P p.start
      (ReplayLogEntry L p.start r).2.2 hrest (by omega)
      (fun q hq => hall q (mem_cons_of_mem _ hq))
      (fun q hq => by
        rw [hdisk]
        exact (hinLog q (mem_cons_of_mem _ hq)).replay hp.outside)
      hreads' (fun _ heq => hne (Int.ofNat_inj.mp heq))
    refine ⟨r', ?_, ?_, hdone⟩
    · have hlog := L.fLogSize_lt
      have hmod : ((p.start + p.size L : Nat) : Int) % 2 ^ 32 % L.fLogSize =
          (first Logged.start P stop : Nat) := by
        rw [Int.emod_eq_of_lt (a := ((p.start + p.size L : Nat) : Int)) (by omega) (by omega),
          ← hnext, Int.natCast_emod]
      have hfirst : first Logged.start (p :: P) stop = p.start := rfl
      rw [hfirst] at hlast ⊢
      rw [length_cons, replayLoop, if_neg (by omega), if_neg (fun heq => hlast (by simp) heq.symm)]
      simp only
      rw [if_pos hok, hnew, hmod]
      exact hloop
    · rw [hdisk', hdisk]
      rfl

theorem replayAll_other :
    ∀ (P : List Logged) (disk : Disk), (∀ p ∈ P, b ∉ p.values) → replayAll P disk b = disk b
  | [], _, _ => rfl
  | p :: P, disk, h => by
    rw [replayAll, foldl_cons, ← replayAll,
      replayAll_other P _ fun q hq => h q (mem_cons_of_mem _ hq)]
    exact p.replay_other _ _ (h p (mem_cons_self ..))

theorem replayAll_last {before after : List Logged} (hmem : b ∈ p.values)
    (hafter : ∀ q ∈ after, b ∉ q.values) (disk : Disk) :
    replayAll (before ++ p :: after) disk b = p.content b := by
  rw [replayAll, foldl_append, foldl_cons, ← replayAll, replayAll_other _ _ hafter]
  exact p.replay_mem _ _ hmem

/-! ## Replaying after a run -/

/-- If the call writes an entry, its array does not go around the end of the log. -/
def LogCall.ArrayFits (L : Log) (j : Journal) (call : LogCall) : Prop :=
  ∀ p ∈ call.entries L j, p.start + L.BlocksUsed p.values.length ≤ L.fLogSize

/-- Mounting the device now, `ReplayLog()` ends with an empty log, it has written home the contents
that the last pending entry has logged for a block, no other block, and it has only read the log. -/
def Journal.Replays (L : Log) (j : Journal) (written : List Logged) : Prop :=
  ∃ rounds r, ReplayLog L rounds j.diskSuperBlock j.disk = some (.B_OK, { j.diskSuperBlock with
        log_start := j.diskSuperBlock.log_end
        flags := .SUPER_BLOCK_DISK_CLEAN }, r) ∧
    (∀ before p after b, j.pending written = before ++ p :: after → b ∈ p.values →
      (∀ q ∈ after, b ∉ q.values) → p.contents b = some (r.disk b)) ∧
    (∀ b, (∀ p ∈ j.pending written, b ∉ p.values) → r.disk b = j.disk b) ∧
    ∀ b ∈ r.reads, L.Contains b

theorem Journal.Run.written {safe : Journal → LogCall → Prop} {j : Journal} {written : List Logged}
    (hsafe : ∀ j call, safe j call → call.ArrayFits L j) (h : Journal.Run L safe written j) :
    ∀ p ∈ written, p.values ≠ [] ∧ p.start + L.BlocksUsed p.values.length ≤ L.fLogSize ∧
      ∀ value ∈ p.values, ¬ L.Contains value ∧ (p.contents value).isSome := by
  induction h with
  | mount pos disk hpos => exact nofun
  | events events _ hok ih => exact ih
  | @write written j call _ hok hcall ih =>
    intro p hp
    rcases mem_append.mp hp with hp | hp
    · exact ih p hp
    · have harray := hsafe j call hcall p hp
      rw [LogCall.entries] at hp
      split at hp
      · next hc =>
          rw [mem_singleton.mp hp] at harray ⊢
          refine ⟨hc.1, harray, fun value hvalue => ⟨hok.outside value hvalue, ?_⟩⟩
          exact all_eq_true.mp hc.2.2 value hvalue
      · cases hp

theorem replayLog_equal {rounds : Nat} {superBlock : SuperBlock}
    {result : Status × SuperBlock × Replay} (h : superBlock.log_start = superBlock.log_end)
    (hreplay : ReplayLog L rounds superBlock disk = some result) : result.2.2.disk = disk := by
  cases rounds with
  | zero => cases hreplay
  | succ rounds =>
    rw [ReplayLog, replayLoop, if_pos h, Option.map_some, if_pos rfl] at hreplay
    cases hreplay
    rfl

theorem block1024_words : 8 ∣ 1024 := by decide

theorem block1024_pos : 8 < 1024 := by decide

/-- A log of 130 blocks, and a call that fills it: the array takes two blocks. -/
def log130 : Log where
  fLogSize := 130
  logOffset := 16
  blockSize := 1024
  fLogSize_pos := by decide
  fLogSize_lt := by decide
  blockSize_words := block1024_words
  blockSize_pos := block1024_pos

def allBlocks : LogCall where
  values := (List.range 128).map fun (i : Nat) => (5000 + i : Int)
  beyond := fun _ => 0
  contents := fun _ => some fun _ => 7
  events := []
  spaceEvents := []
  flushEvents := []

theorem replayAll_congr : ∀ (P : List Logged) {disk torn : Disk},
    (∀ b, (∀ p ∈ P, b ∉ p.values) → torn b = disk b) → replayAll P torn = replayAll P disk
  | [], _, _, h => funext fun b => h b nofun
  | p :: P, disk, torn, h => by
    refine replayAll_congr P fun b hb => ?_
    show p.replay p.values torn b = p.replay p.values disk b
    by_cases hmem : b ∈ p.values
    · rw [p.replay_mem _ _ hmem, p.replay_mem _ _ hmem]
    · rw [p.replay_other _ _ hmem, p.replay_other _ _ hmem]
      exact h b (forall_mem_cons.mpr ⟨hmem, hb⟩)

/-- **A replay may break off anywhere.** Whatever it has left in the blocks the pending entries
have logged, `ReplayLog()` comes to the same device when it starts over. -/
theorem replayLog_again {j : Journal} {written : List Logged} {torn : Disk}
    (h : Journal.Run L (fun j call => call.Safe L j ∧ call.ArrayFits L j) written j)
    (htorn : ∀ b, torn b = j.disk b ∨ ¬ L.Contains b ∧ ∃ p ∈ j.pending written, b ∈ p.values) :
    ∃ rounds superBlock r r',
      ReplayLog L rounds j.diskSuperBlock j.disk = some (.B_OK, superBlock, r) ∧
      ReplayLog L rounds j.diskSuperBlock torn = some (.B_OK, superBlock, r') ∧
      r'.disk = r.disk := by
  have hinv := h.inv fun _ _ hcall => hcall.1
  have hwritten := h.written fun _ _ hcall => hcall.2
  have hcore := hinv.core
  have htotal := hinv.total
  have hpending : ∀ p ∈ j.pending written, p ∈ written := fun p hp =>
    (dropWhile_suffix fun q : Logged => !j.live q.id).subset hp
  generalize j.pending written = P at *
  have hall : ∀ p ∈ P, p.Replayable L := by
    intro p hp
    obtain ⟨hvalues, harray, hout⟩ := hwritten p (hpending p hp)
    obtain ⟨before, after, hsplit⟩ := append_of_mem hp
    have hchain := hcore.chain
    rw [hsplit] at hchain htotal
    rw [map_append, map_cons, sum_append, sum_cons] at htotal
    exact ⟨hvalues, hchain.suffix.1, by omega, harray, fun value hvalue => (hout value hvalue).1⟩
  have hreplay : ∀ disk, (∀ p ∈ P, p.InLog L disk) → ∃ r,
      ReplayLog L (P.length + 1) j.diskSuperBlock disk = some (.B_OK, { j.diskSuperBlock with
        log_start := j.diskSuperBlock.log_end
        flags := .SUPER_BLOCK_DISK_CLEAN }, r) ∧ r.disk = replayAll P disk := by
    intro disk hinLog
    obtain ⟨r, hloop, hdisk, -⟩ := replayLoop_spec hcore.stop_lt P (-1) ⟨disk, []⟩ hcore.chain
      htotal hall hinLog (fun b hb => absurd hb not_mem_nil) (fun _ => by omega)
    refine ⟨r, ?_, hdisk⟩
    rw [ReplayLog, hcore.diskSuper, hcore.superEnd, hcore.superStart, hcore.logStart, hloop,
      Option.map_some, if_pos rfl, ← hcore.superEnd]
  have hsame : replayAll P torn = replayAll P j.disk := replayAll_congr P fun b hb =>
    (htorn b).resolve_right fun ⟨_, p, hp, hmem⟩ => hb p hp hmem
  obtain ⟨r, hr, hdisk⟩ := hreplay j.disk hcore.inLog
  obtain ⟨r', hr', hdisk'⟩ := hreplay torn fun p hp k hk =>
    ((htorn _).resolve_right fun hout => hout.1 (L.contains_position _)).trans
      (hcore.inLog p hp k hk)
  exact ⟨_, _, r, r', hr, hr', by rw [hdisk', hdisk, hsame]⟩

theorem replayLog_again_one : ∃ (j : Journal) (torn : Disk), torn 5000 ≠ j.disk 5000 ∧
    ∃ rounds superBlock r r',
      ReplayLog log2048 rounds j.diskSuperBlock j.disk = some (.B_OK, superBlock, r) ∧
      ReplayLog log2048 rounds j.diskSuperBlock torn = some (.B_OK, superBlock, r') ∧
      r'.disk = r.disk := by
  have hone : (oneBlock []).entries log2048 (Journal.mount 0 fun _ _ => 0) =
      [(oneBlock []).logged 0 0] := if_pos (by decide)
  let j := (Journal.mount 0 fun _ _ => 0).WriteLogEntry log2048 (oneBlock [])
  refine ⟨j.2, update j.2.disk 5000 fun _ => 3, ?_, @replayLog_again _ _ ([] ++ _) _
    (.write (oneBlock []) (.mount 0 _ (by decide)) ?_ ⟨?_, ?_⟩) fun b => ?_⟩
  · rw [update_self]
    exact fun heq => absurd (congrFun heq 0) (by decide +kernel)
  · exact ⟨.nil .., .nil .., oneBlock_outside⟩
  · intro _ _ _
    rw [if_neg (by decide)]
    decide
  · intro p hp
    rw [hone] at hp
    rw [mem_singleton.mp hp]
    decide
  · by_cases hb : b = 5000
    · subst hb
      refine .inr ⟨oneBlock_outside _ (mem_singleton_self _), (oneBlock []).logged 0 0, ?_,
        mem_singleton_self _⟩
      rw [nil_append, hone, Journal.pending, dropWhile_cons_of_neg (by decide +kernel)]
      exact mem_singleton_self _
    · exact .inl (update_of_ne hb ..)

end BFS

import OpenBeOS.BFS.Stream

/-! # Who owns the blocks of the streams

`Owns` says that the used blocks are those of others and, each once, those of a list of runs.
Allocating adds a run to the list, freeing takes one away, and splitting or merging runs keeps
the blocks that are covered. Here this is carried through the operations on the arrays of a
stream up to `ShrinkStream()`; growing, and the calls from outside, are in `StreamCalls.lean`.
-/

namespace BFS

open List

/-! ## Covering blocks by runs -/

/-- How many of the runs contain a block. -/
def cover (runs : List block_run) (group : Int) (i : Nat) : Nat :=
  runs.countP fun run => run.Contains group i

/-- The number of blocks of the runs. -/
def blocksOf (runs : List block_run) : Nat := (runs.map block_run.length).sum

@[simp] theorem cover_nil (group : Int) (i : Nat) : cover [] group i = 0 := rfl

@[simp] theorem cover_cons (run : block_run) (runs : List block_run) (group : Int) (i : Nat) :
    cover (run :: runs) group i = cover runs group i + if run.Contains group i then 1 else 0 := by
  simp [cover, countP_cons]

@[simp] theorem cover_append (runs runs' : List block_run) (group : Int) (i : Nat) :
    cover (runs ++ runs') group i = cover runs group i + cover runs' group i := by
  simp [cover]

@[simp] theorem cover_zeros (k : Nat) (group : Int) (i : Nat) :
    cover (List.replicate k block_run.zero) group i = 0 := by
  have : ¬block_run.zero.Contains group i := by
    simp only [block_run.Contains, block_run.zero]
    omega
  induction k with
  | zero => rfl
  | succ k ih => rw [replicate_succ, cover_cons, ih, if_neg this]

@[simp] theorem blocksOf_nil : blocksOf [] = 0 := rfl

@[simp] theorem blocksOf_cons (run : block_run) (runs : List block_run) :
    blocksOf (run :: runs) = run.length + blocksOf runs := by
  simp [blocksOf]

@[simp] theorem blocksOf_append (runs runs' : List block_run) :
    blocksOf (runs ++ runs') = blocksOf runs + blocksOf runs' := by
  simp [blocksOf]

theorem cover_merge (group₀ : Int) (start n m : Nat) (group : Int) (i : Nat) :
    cover [⟨group₀, start, n + m⟩] group i =
      cover [⟨group₀, start, n⟩] group i + cover [⟨group₀, start + n, m⟩] group i := by
  have hboth : (⟨group₀, start, n + m⟩ : block_run).Contains group i ↔
      (⟨group₀, start, n⟩ : block_run).Contains group i ∨
        (⟨group₀, start + n, m⟩ : block_run).Contains group i := by
    simp only [block_run.Contains]
    omega
  have hone : ¬((⟨group₀, start, n⟩ : block_run).Contains group i ∧
      (⟨group₀, start + n, m⟩ : block_run).Contains group i) := by
    simp only [block_run.Contains]
    omega
  simp only [cover_cons, cover_nil, Nat.zero_add]
  by_cases h₁ : (⟨group₀, start, n⟩ : block_run).Contains group i
  · rw [if_pos (hboth.2 (.inl h₁)), if_pos h₁, if_neg fun h₂ => hone ⟨h₁, h₂⟩]
  · by_cases h₂ : (⟨group₀, start + n, m⟩ : block_run).Contains group i
    · rw [if_pos (hboth.2 (.inr h₂)), if_neg h₁, if_pos h₂]
    · rw [if_neg fun h => (hboth.1 h).elim h₁ h₂, if_neg h₁, if_neg h₂]

/-- A run an array may hold: not empty, and its blocks can be addressed. -/
structure block_run.Ok (run : block_run) : Prop where
  pos : 0 < run.length
  lt : run.length < 65536
  fits : run.start + run.length ≤ 65536

theorem block_run.Ok.not_zero {run : block_run} (h : run.Ok) : run.IsZero = false := by
  have := h.pos
  simp only [IsZero, decide_eq_false_iff_not]
  omega

/-- The lengths of the part of a run that is kept and of the part that is freed do not wrap. -/
theorem block_run.Ok.toUint16_trim {run : block_run} (h : run.Ok) {q : Nat}
    (hkept : q + 1 ≤ run.length) :
    toUint16 (toUint16 (run.start + q + 1) + 65536 - run.start) = q + 1 ∧
      toUint16 (run.length + 65536 - (q + 1)) = run.length - (q + 1) := by
  obtain ⟨-, hlt, hfits⟩ := h
  constructor <;> unfold toUint16 <;> omega

/-! ## Ownership -/

open Classical in
/-- 1 for a block in the set, 0 for one outside. -/
noncomputable def indicator (p : Prop) : Nat := if p then 1 else 0

/-- What the allocator must do: hand out a run of free blocks in the wanted bounds and mark just
these, and release just the blocks of a run that is in use. The blocks of a group have 16 bit
numbers. -/
structure Allocator.Correct {σ : Type} (volume : Allocator σ) (used : σ → Int → Nat → Prop) :
    Prop where
  block_size : 8 ≤ volume.BlockSize
  allocate_length : ∀ s data numBlocks minimum run s',
    volume.Allocate s data numBlocks minimum = some (run, s') →
      0 < run.length ∧ minimum ≤ run.length ∧ (run.length : Int) ≤ numBlocks ∧
        run.length < 65536 ∧ run.start + run.length ≤ 65536
  allocate_free : ∀ s data numBlocks minimum run s',
    volume.Allocate s data numBlocks minimum = some (run, s') →
      ∀ group i, run.Contains group i → ¬used s group i
  allocate_used : ∀ s data numBlocks minimum run s',
    volume.Allocate s data numBlocks minimum = some (run, s') →
      ∀ group i, used s' group i ↔ used s group i ∨ run.Contains group i
  free_used : ∀ s run, 0 < run.length → (∀ group i, run.Contains group i → used s group i) →
    ∀ group i, used (volume.Free s run) group i ↔ used s group i ∧ ¬run.Contains group i

section

variable {σ : Type} {volume : Allocator σ} {used : σ → Int → Nat → Prop}

/-- The used blocks are the `others` and, each once and none of them among the others, those of
the runs. -/
def Owns (used : σ → Int → Nat → Prop) (others : Int → Nat → Prop) (s : σ)
    (runs : List block_run) : Prop :=
  ∀ group i, indicator (used s group i) = indicator (others group i) + cover runs group i

variable {others : Int → Nat → Prop}

theorem Owns.congr {s : σ} {runs runs' : List block_run} (h : Owns used others s runs)
    (hc : ∀ group i, cover runs' group i = cover runs group i) : Owns used others s runs' :=
  fun group i => by rw [h group i, hc]

theorem indicator_of {p : Prop} (h : p) : indicator p = 1 := if_pos h

theorem indicator_of_not {p : Prop} (h : ¬p) : indicator p = 0 := if_neg h

theorem indicator_eq_one {p : Prop} : indicator p = 1 ↔ p := by
  unfold indicator
  split <;> simp_all

variable {runs : List block_run} {data : data_stream} {run : block_run}

theorem Owns.allocate (hcorrect : volume.Correct used) {s s' : σ}
    (h : Owns used others s runs) {numBlocks : Int} {minimum : Nat} (ha : volume.Allocate s data numBlocks minimum = some (run, s')) :
    Owns used others s' (run :: runs) := by
  intro group i
  have hused := hcorrect.allocate_used _ _ _ _ _ _ ha group i
  have hold := h group i
  rw [cover_cons]
  by_cases hin : run.Contains group i
  · rw [indicator_of_not (hcorrect.allocate_free _ _ _ _ _ _ ha group i hin)] at hold
    rw [indicator_of (hused.2 (.inr hin)), if_pos hin]
    omega
  · rw [if_neg hin, Nat.add_zero, ← hold]
    congr 1
    exact propext ⟨fun hu => (hused.1 hu).resolve_right hin, fun hu => hused.2 (.inl hu)⟩

theorem Owns.free (hcorrect : volume.Correct used) {s : σ} (h : Owns used others s (run :: runs)) (hpos : 0 < run.length) :
    Owns used others (volume.Free s run) runs := by
  have hin : ∀ group i, run.Contains group i → used s group i := by
    intro group i hc
    have := h group i
    rw [cover_cons, if_pos hc] at this
    refine indicator_eq_one.1 ?_
    have hle : indicator (used s group i) ≤ 1 := by
      unfold indicator
      split <;> omega
    omega
  intro group i
  have hold := h group i
  have hused := hcorrect.free_used s run hpos hin group i
  rw [cover_cons] at hold
  by_cases hc : run.Contains group i
  · rw [indicator_of (hin group i hc), if_pos hc] at hold
    rw [indicator_of_not fun hu => (hused.1 hu).2 hc]
    omega
  · rw [if_neg hc, Nat.add_zero] at hold
    rw [← hold]
    congr 1
    exact propext ⟨fun hu => (hused.1 hu).1, fun hu => hused.2 ⟨hu, hc⟩⟩

/-! ## Freeing the end of an array -/

/-- What is left of the runs from `offset` on when the stream is cut at `size`. -/
def trimRuns (blockSize size : Nat) : Nat → List block_run → List block_run
  | _, [] => []
  | offset, run :: rest =>
    if offset + run.length * blockSize ≤ size then
      run :: trimRuns blockSize size (offset + run.length * blockSize) rest
    else if offset < size then [{ run with length := (size - offset) / blockSize + 1 }]
    else []

theorem trimRuns_of_le {blockSize size offset : Nat} (h : size ≤ offset) (hb : 0 < blockSize)
    (runs : List block_run) (hruns : ∀ run ∈ runs, run.Ok) :
    trimRuns blockSize size offset runs = [] := by
  cases runs with
  | nil => rfl
  | cons run rest =>
    have hpos := Nat.mul_pos (hruns run (by simp)).pos hb
    rw [trimRuns, if_neg (by omega), if_neg (by omega)]

theorem trimRuns_length (blockSize size offset : Nat) (runs : List block_run) :
    (trimRuns blockSize size offset runs).length ≤ runs.length := by
  induction runs generalizing offset with
  | nil => exact Nat.le_refl _
  | cons run rest ih =>
    rw [trimRuns]
    split
    · have := ih (offset + run.length * blockSize)
      simp only [length_cons]
      omega
    · split <;> simp

theorem keptLength_bounds {blockSize size offset : Nat} (hb : 0 < blockSize)
    (hend : ¬offset + run.length * blockSize ≤ size) (hoffset : offset < size) :
    (size - offset) / blockSize + 1 ≤ run.length ∧
      size ≤ offset + ((size - offset) / blockSize + 1) * blockSize := by
  have hlt : (size - offset) / blockSize < run.length := (Nat.div_lt_iff_lt_mul hb).2 (by omega)
  have hdiv := Nat.div_add_mod (size - offset) blockSize
  have hmod := Nat.mod_lt (size - offset) hb
  rw [Nat.mul_comm] at hdiv
  refine ⟨by omega, ?_⟩
  rw [Nat.add_mul]
  omega

theorem trimRuns_ok {blockSize size : Nat} (hb : 0 < blockSize) (offset : Nat)
    (runs : List block_run) (hruns : ∀ run ∈ runs, run.Ok) :
    ∀ run ∈ trimRuns blockSize size offset runs, run.Ok := by
  induction runs generalizing offset with
  | nil => simp [trimRuns]
  | cons run rest ih =>
    have hrun := hruns run (by simp)
    rw [trimRuns]
    split
    · intro r hr
      rcases mem_cons.1 hr with rfl | hr
      · exact hrun
      · exact ih _ (fun r hr => hruns r (by simp [hr])) r hr
    · rename_i hend
      split
      · rename_i hoffset
        intro r hr
        obtain rfl := mem_singleton.1 hr
        have hkept := (keptLength_bounds hb hend hoffset).1
        have := hrun.lt
        have := hrun.fits
        exact ⟨by simp, by simp only; omega, by simp only; omega⟩
      · simp

/-- The kept runs hold at least what lies below `size`. -/
theorem le_trimRuns {blockSize size : Nat} (hb : 0 < blockSize) (offset : Nat)
    (runs : List block_run) (hruns : ∀ run ∈ runs, run.Ok)
    (hsize : size ≤ offset + blocksOf runs * blockSize) :
    size ≤ offset + blocksOf (trimRuns blockSize size offset runs) * blockSize := by
  induction runs generalizing offset with
  | nil => exact hsize
  | cons run rest ih =>
    rw [blocksOf_cons, Nat.add_mul] at hsize
    rw [trimRuns]
    split
    · have := ih (offset + run.length * blockSize) (fun r hr => hruns r (by simp [hr]))
        (by omega)
      rw [blocksOf_cons, Nat.add_mul]
      omega
    · rename_i hend
      split
      · rename_i hoffset
        have := (keptLength_bounds hb hend hoffset).2
        simp only [blocksOf_cons, blocksOf_nil]
        omega
      · omega

/-- Everything behind `size` is freed. -/
theorem FreeStreamArray_behind (size : Nat) (hb : 0 < volume.BlockSize)
    (hcorrect : volume.Correct used) (runs : List block_run) (hruns : ∀ run ∈ runs, run.Ok)
    (k offset max : Nat) (s : σ) (hle : size ≤ offset) (rest : List block_run)
    (ho : Owns used others s (runs ++ rest)) :
    let r := FreeStreamArray volume size (runs ++ List.replicate k block_run.zero) offset max s
    r.1 = List.replicate (runs.length + k) block_run.zero ∧
      r.2.2.1 = (if runs = [] then max else min max offset) ∧
      Owns used others r.2.2.2 rest := by
  induction runs generalizing offset max s with
  | nil =>
    cases k with
    | zero => exact ⟨rfl, rfl, ho⟩
    | succ k => exact ⟨by simp [FreeStreamArray, replicate_succ, block_run.IsZero,
        block_run.zero], rfl, ho⟩
  | cons run runs ih =>
    have hrun := hruns run (by simp)
    have hpos := Nat.mul_pos hrun.pos hb
    have hfreed : Owns used others (volume.Free s run) (runs ++ rest) :=
      Owns.free hcorrect ho hrun.pos
    obtain ⟨h₁, h₂, h₃⟩ := ih (fun r hr => hruns r (by simp [hr]))
      (offset + run.length * volume.BlockSize) (if max > offset then offset else max)
      (volume.Free s run) (by omega) hfreed
    simp only [cons_append, FreeStreamArray, hrun.not_zero, Bool.false_eq_true, ↓reduceIte]
    rw [if_neg (by omega), if_neg (by omega)]
    have hmin : (if max > offset then offset else max) = min max offset := by
      split <;> omega
    refine ⟨?_, ?_, h₃⟩
    · rw [h₁, length_cons, Nat.add_right_comm, replicate_succ]
    · rw [h₂, hmin, if_neg (cons_ne_nil run runs)]
      split <;> omega

/-- **`FreeStreamArray()`** leaves the trimmed runs, and frees the others. -/
theorem FreeStreamArray_spec (size : Nat) (hb : 0 < volume.BlockSize)
    (hcorrect : volume.Correct used) (runs : List block_run) (hruns : ∀ run ∈ runs, run.Ok)
    (k offset max : Nat) (s : σ) (hmax : max = offset + blocksOf runs * volume.BlockSize)
    (rest : List block_run) (ho : Owns used others s (runs ++ rest)) :
    let r := FreeStreamArray volume size (runs ++ List.replicate k block_run.zero) offset max s
    let kept := trimRuns volume.BlockSize size offset runs
    r.1 = kept ++ List.replicate (runs.length + k - kept.length) block_run.zero ∧
      r.2.2.1 = offset + blocksOf kept * volume.BlockSize ∧
      Owns used others r.2.2.2 (kept ++ rest) := by
  induction runs generalizing offset max s rest with
  | nil =>
    have hmax' : max = offset := by simpa using hmax
    cases k with
    | zero => exact ⟨rfl, by simpa [FreeStreamArray, trimRuns] using hmax', ho⟩
    | succ k =>
      refine ⟨?_, ?_, ?_⟩
      · simp [FreeStreamArray, trimRuns, replicate_succ, block_run.IsZero, block_run.zero]
      · simpa [FreeStreamArray, trimRuns, replicate_succ, block_run.IsZero,
          block_run.zero] using hmax'
      · simpa [FreeStreamArray, trimRuns, replicate_succ, block_run.IsZero, block_run.zero] using ho
  | cons run runs ih =>
    have hrun := hruns run (by simp)
    have hruns' : ∀ r ∈ runs, r.Ok := fun r hr => hruns r (by simp [hr])
    have hpos := Nat.mul_pos hrun.pos hb
    rw [blocksOf_cons, Nat.add_mul, ← Nat.add_assoc] at hmax
    by_cases hend : offset + run.length * volume.BlockSize ≤ size
    · -- the run lies below the size
      have ho' : Owns used others s (runs ++ run :: rest) :=
        ho.congr fun group i => by simp only [cover_append, cover_cons]; omega
      obtain ⟨h₁, h₂, h₃⟩ := ih hruns' (offset + run.length * volume.BlockSize) max s hmax
        (run :: rest) ho'
      simp only [cons_append, FreeStreamArray, hrun.not_zero, Bool.false_eq_true,
        ↓reduceIte, trimRuns, if_pos hend]
      refine ⟨?_, ?_, ?_⟩
      · rw [h₁, length_cons, length_cons]
        congr 3
        omega
      · rw [h₂, blocksOf_cons, Nat.add_mul]
        omega
      · exact h₃.congr fun group i => by simp only [cover_append, cover_cons]; omega
    · by_cases hoffset : offset < size
      · -- the run contains the size: what follows the kept blocks is freed
        obtain ⟨hkept, -⟩ := keptLength_bounds hb hend hoffset
        have hlt := hrun.lt
        have hfits := hrun.fits
        simp only [cons_append, FreeStreamArray, hrun.not_zero, Bool.false_eq_true,
          ↓reduceIte, trimRuns, if_neg hend, if_pos hoffset]
        generalize (size - offset) / volume.BlockSize = q at *
        obtain ⟨hlength, hfreed⟩ := hrun.toUint16_trim hkept
        rw [hlength, hfreed]
        have hcount : (q + 1) * volume.BlockSize ≤ run.length * volume.BlockSize :=
          Nat.mul_le_mul_right _ hkept
        by_cases hall : run.length - (q + 1) = 0
        · have hq : q + 1 = run.length := by omega
          rw [if_pos hall, hq]
          have ho' : Owns used others s (runs ++ run :: rest) :=
            ho.congr fun group i => by simp only [cover_append, cover_cons]; omega
          obtain ⟨h₁, h₂, h₃⟩ := FreeStreamArray_behind size hb hcorrect runs hruns' k
            (offset + run.length * volume.BlockSize) max s (by omega) _ ho'
          refine ⟨?_, ?_, h₃⟩
          · rw [h₁]
            simp only [length_cons, length_nil, nil_append, List.cons.injEq, true_and]
            congr 1
            omega
          · rw [h₂]
            simp only [blocksOf_cons, blocksOf_nil, Nat.add_zero]
            split
            · rename_i hnil
              simpa [hnil] using hmax
            · omega
        · rw [if_neg hall]
          have hstart : toUint16 (run.start + q + 1) = run.start + (q + 1) := by
            unfold toUint16
            omega
          have hsplit : ∀ group i, cover [run] group i =
              cover [{ run with length := q + 1 }] group i +
                cover [{ run with start := run.start + (q + 1), length := run.length - (q + 1) }]
                  group i := by
            intro group i
            rw [← cover_merge run.allocation_group run.start (q + 1) (run.length - (q + 1)),
              Nat.add_sub_cancel' hkept]
          rw [hstart]
          have hparts : Owns used others s ({ run with
              start := run.start + (q + 1), length := run.length - (q + 1) } ::
              (runs ++ { run with length := q + 1 } :: rest)) :=
            ho.congr fun group i => by
              have := hsplit group i
              simp only [cover_append, cover_cons, cover_nil] at this ⊢
              omega
          have ho' := hparts.free hcorrect (by simp only; omega)
          obtain ⟨h₁, h₂, h₃⟩ := FreeStreamArray_behind size hb hcorrect runs hruns' k
            (offset + run.length * volume.BlockSize) (offset + (q + 1) * volume.BlockSize) _
            (by omega) _ ho'
          refine ⟨?_, ?_, h₃⟩
          · rw [h₁]
            simp only [length_cons, length_nil, nil_append, List.cons.injEq, true_and]
            congr 1
            omega
          · rw [h₂]
            simp only [blocksOf_cons, blocksOf_nil, Nat.add_zero]
            split <;> omega
      · obtain ⟨h₁, h₂, h₃⟩ := FreeStreamArray_behind size hb hcorrect (run :: runs) hruns k offset
          max s (by omega) rest ho
        have hnil := trimRuns_of_le (show size ≤ offset by omega) hb (run :: runs) hruns
        simp only [hnil]
        refine ⟨?_, ?_, h₃⟩
        · rw [h₁]
          simp
        · rw [h₂, if_neg (cons_ne_nil run runs), blocksOf_nil]
          omega

/-! ## The indirect blocks -/

/-- Freeing two arrays one after the other is freeing both as one array, unless an unused entry
of the first is followed by a used one of the second. -/
theorem FreeStreamArray_append (size : Nat) (a b : List block_run) (offset max : Nat) (s : σ)
    (h : (∀ run ∈ a, run.IsZero = false) ∨ ∀ run ∈ b, run.IsZero = true) :
    FreeStreamArray volume size (a ++ b) offset max s =
      let r := FreeStreamArray volume size a offset max s
      let r' := FreeStreamArray volume size b r.2.1 r.2.2.1 r.2.2.2
      (r.1 ++ r'.1, r'.2) := by
  induction a generalizing offset max s with
  | nil => rfl
  | cons run a ih =>
    have h' : (∀ run ∈ a, run.IsZero = false) ∨ ∀ run ∈ b, run.IsZero = true :=
      h.imp_left fun h r hr => h r (by simp [hr])
    simp only [cons_append, FreeStreamArray]
    by_cases hz : run.IsZero = true
    · -- the array ends here, and the other one is unused
      have hb := h.resolve_left fun h => by
        have := h run (by simp)
        rw [hz] at this
        cases this
      rw [if_pos hz, if_pos hz]
      cases b with
      | nil => simp [FreeStreamArray]
      | cons run' b => simp [FreeStreamArray, hb run' (by simp)]
    · rw [if_neg hz, if_neg hz]
      split
      · rw [ih _ _ _ h']
        rfl
      · split
        · split
          · rw [ih _ _ _ h']
            rfl
          · rw [ih _ _ _ h']
            rfl
        · rw [ih _ _ _ h']
          rfl

/-- The arrays hold these runs, and behind them only unused entries. -/
def Holds (arrays : List (List block_run)) (runs : List block_run) : Prop :=
  ∃ k, arrays.flatten = runs ++ List.replicate k block_run.zero

theorem zero_isZero : block_run.zero.IsZero = true := rfl

/-- The first array holds the first runs: either it is full, or the others are unused. -/
theorem Holds.cons {array : List block_run} {arrays : List (List block_run)} (h : Holds (array :: arrays) runs) :
    (∃ rest, runs = array ++ rest ∧ Holds arrays rest) ∨
      ∃ k, array = runs ++ List.replicate (k + 1) block_run.zero ∧ Holds arrays [] := by
  obtain ⟨k, hk⟩ := h
  rw [flatten_cons] at hk
  rcases append_eq_append_iff.1 hk with ⟨rest, hrest, htail⟩ | ⟨zeros, harray, hzeros⟩
  · exact .inl ⟨rest, hrest, k, htail⟩
  · have hz : zeros = List.replicate zeros.length block_run.zero :=
      eq_replicate_of_mem fun r hr => eq_of_mem_replicate (hzeros ▸ mem_append_left _ hr)
    have ht : arrays.flatten = List.replicate arrays.flatten.length block_run.zero :=
      eq_replicate_of_mem fun r hr => eq_of_mem_replicate (hzeros ▸ mem_append_right _ hr)
    cases hn : zeros.length with
    | zero =>
      have : zeros = [] := eq_nil_of_length_eq_zero hn
      subst this
      rw [append_nil] at harray
      refine .inl ⟨[], by rw [harray, append_nil], arrays.flatten.length, ?_⟩
      rw [nil_append]
      exact ht
    | succ n =>
      rw [hn] at hz
      refine .inr ⟨n, by rw [harray, ← hz], arrays.flatten.length, ?_⟩
      rw [nil_append]
      exact ht

theorem freeArrays_flatten (volume : Allocator σ) (size : Nat)
    (arrays : List (List block_run)) (runs : List block_run) (hruns : ∀ run ∈ runs, run.IsZero = false) (h : Holds arrays runs) (offset max : Nat)
    (s : σ) :
    let r := freeArrays volume size arrays offset max s
    FreeStreamArray volume size arrays.flatten offset max s = (r.1.flatten, r.2) := by
  induction arrays generalizing runs offset max s with
  | nil => rfl
  | cons array arrays ih =>
    simp only [freeArrays, flatten_cons]
    rcases h.cons with ⟨rest, hrest, hholds⟩ | ⟨k, harray, hholds⟩
    · have hfull : ∀ run ∈ array, run.IsZero = false := fun r hr =>
        hruns r (hrest ▸ mem_append_left _ hr)
      rw [FreeStreamArray_append size _ _ _ _ _ (.inl hfull)]
      simp only
      rw [ih rest (fun r hr => hruns r (hrest ▸ mem_append_right _ hr)) hholds]
    · have hempty : ∀ run ∈ arrays.flatten, run.IsZero = true := by
        obtain ⟨n, hn⟩ := hholds
        intro r hr
        rw [hn, nil_append] at hr
        rw [eq_of_mem_replicate hr, zero_isZero]
      rw [FreeStreamArray_append size _ _ _ _ _ (.inr hempty)]
      simp only
      rw [ih [] (by simp) hholds]

/-! ## Inserting a run -/

theorem findFree_eq (runs : List block_run) (hruns : ∀ run ∈ runs, run.IsZero = false)
    (k : Nat) : findFree (runs ++ List.replicate k block_run.zero) = runs.length := by
  unfold findFree
  induction runs with
  | nil => cases k <;> simp [replicate_succ, zero_isZero]
  | cons run runs ih =>
    have := ih fun r hr => hruns r (by simp [hr])
    simp [hruns run (by simp), this]

/-- The run follows the last used one of the array directly. -/
def FollowsLast (array : List block_run) (run : block_run) : Prop :=
  findFree array > 0 ∧
    (array.getD (findFree array - 1) block_run.zero).allocation_group = run.allocation_group ∧
    (array.getD (findFree array - 1) block_run.zero).start +
      (array.getD (findFree array - 1) block_run.zero).length = run.start

/-- The run can be inserted: if it is merged with the last one, the length stays a `uint16`. -/
def MergeFits (array : List block_run) (run : block_run) : Prop :=
  FollowsLast array run →
    (array.getD (findFree array - 1) block_run.zero).length + run.length < 65536

/-- The run is merged with the last one, or put behind it. -/
theorem insertRun_cases {runs : List block_run} (hruns : ∀ r ∈ runs, r.Ok) (k : Nat)
    {run : block_run} (hfits : MergeFits (runs ++ List.replicate (k + 1) block_run.zero) run) :
    let array := runs ++ List.replicate (k + 1) block_run.zero
    (∃ before last, runs = before ++ [last] ∧ last.allocation_group = run.allocation_group ∧
        last.start + last.length = run.start ∧ last.length + run.length < 65536 ∧
        insertRun array (findFree array) run =
          before ++ [{ last with length := last.length + run.length }] ++
            List.replicate (k + 1) block_run.zero) ∨
      insertRun array (findFree array) run = runs ++ run :: List.replicate k block_run.zero := by
  have hfree := findFree_eq runs (fun r hr => (hruns r hr).not_zero) (k + 1)
  unfold MergeFits FollowsLast at hfits
  dsimp only
  rw [hfree] at hfits ⊢
  unfold insertRun
  simp only
  split
  · rename_i hlast
    have hlt := hfits hlast
    obtain ⟨hpos, hgroup, hstart⟩ := hlast
    rcases eq_nil_or_concat runs with hnil | ⟨before, last, rfl⟩
    · rw [hnil] at hpos
      exact absurd hpos (by simp)
    · rw [concat_eq_append] at *
      have hget : ((before ++ [last]) ++ List.replicate (k + 1) block_run.zero).getD
          ((before ++ [last]).length - 1) block_run.zero = last := by
        simp
      rw [hget] at hgroup hstart hlt ⊢
      refine Or.inl ⟨before, last, rfl, hgroup, hstart, hlt, ?_⟩
      rw [toUint16_of_lt hlt]
      simp
  · exact Or.inr (by simp [replicate_succ])

/-- The array after a run was inserted holds the same blocks and those of the run. -/
theorem insertRun_spec (runs : List block_run) (hruns : ∀ r ∈ runs, r.Ok) (k : Nat)
    (run : block_run) (hrun : run.Ok)
    (hfits : MergeFits (runs ++ List.replicate (k + 1) block_run.zero) run) :
    ∃ runs' k', insertRun (runs ++ List.replicate (k + 1) block_run.zero)
        (findFree (runs ++ List.replicate (k + 1) block_run.zero)) run =
        runs' ++ List.replicate k' block_run.zero ∧
      runs'.length + k' = runs.length + (k + 1) ∧ runs' ≠ [] ∧ (∀ r ∈ runs', r.Ok) ∧
      runs.length ≤ runs'.length ∧
      blocksOf runs' = blocksOf runs + run.length ∧
      ∀ group i, cover runs' group i = cover runs group i + cover [run] group i := by
  rcases insertRun_cases hruns k hfits with ⟨before, last, rfl, hgroup, hstart, hlt, hset⟩ | hset
  · have hlast := hruns last (by simp)
    refine ⟨before ++ [{ last with length := last.length + run.length }], k + 1, hset, by simp,
      by simp, ?_, by simp, by simp [Nat.add_assoc], fun group i => ?_⟩
    · intro r hr
      rcases mem_append.1 hr with hr | hr
      · exact hruns r (by simp [hr])
      · obtain rfl := mem_singleton.1 hr
        have := hrun.fits
        exact ⟨by have := hlast.pos; simp only; omega, hlt, by simp only; omega⟩
    · have hmerge := cover_merge last.allocation_group last.start last.length run.length group i
      have hlast' : (⟨last.allocation_group, last.start, last.length⟩ : block_run) = last := rfl
      have hrun' : (⟨last.allocation_group, last.start + last.length, run.length⟩ : block_run) =
          run := by
        rw [hgroup, hstart]
      rw [hlast', hrun'] at hmerge
      rw [cover_append, cover_append, hmerge]
      omega
  · refine ⟨runs ++ [run], k, by simp [hset], by simp; omega, by simp, ?_, by simp, by simp,
      fun group i => by simp⟩
    intro r hr
    rcases mem_append.1 hr with hr | hr
    · exact hruns r hr
    · obtain rfl := mem_singleton.1 hr
      exact hrun

/-- The first array with an unused entry. -/
def arrayWithRoom (arrays : List (List block_run)) : Option (List block_run) :=
  arrays.find? fun array => findFree array < array.length

theorem insertIndirect_spec (run : block_run) (hrun : run.Ok)
    (arrays : List (List block_run)) (runs : List block_run) (hruns : ∀ r ∈ runs, r.Ok)
    (h : Holds arrays runs) (array : List block_run)
    (harray : arrayWithRoom arrays = some array) (hfits : MergeFits array run) :
    ∃ arrays' runs', insertIndirect run arrays = some arrays' ∧ Holds arrays' runs' ∧
      runs' ≠ [] ∧ (∀ r ∈ runs', r.Ok) ∧ blocksOf runs' = blocksOf runs + run.length ∧
      ∀ group i, cover runs' group i = cover runs group i + cover [run] group i := by
  induction arrays generalizing runs with
  | nil => cases harray
  | cons first arrays ih =>
    unfold arrayWithRoom at harray
    rw [List.find?_cons] at harray
    rcases h.cons with ⟨rest, hrest, hholds⟩ | ⟨k, hfirst, n, hn⟩
    · -- the first array is full
      have hfull : findFree first = first.length := by
        have := findFree_eq first (fun r hr => (hruns r (hrest ▸ mem_append_left _ hr)).not_zero) 0
        simpa using this
      rw [hfull, decide_eq_false (Nat.lt_irrefl _)] at harray
      obtain ⟨arrays', runs', hins, ⟨n, hn⟩, hne, hok, hblocks, hcover⟩ :=
        ih rest (fun r hr => hruns r (hrest ▸ mem_append_right _ hr)) hholds harray
      refine ⟨first :: arrays', first ++ runs', ?_, ⟨n, ?_⟩, by simp [hne], ?_, ?_, ?_⟩
      · rw [insertIndirect, if_neg (by omega), hins]
        rfl
      · rw [flatten_cons, hn, append_assoc]
      · intro r hr
        rcases mem_append.1 hr with hr | hr
        · exact hruns r (hrest ▸ mem_append_left _ hr)
        · exact hok r hr
      · rw [hrest, blocksOf_append, blocksOf_append, hblocks]
        omega
      · intro group i
        rw [hrest, cover_append, cover_append, hcover]
        omega
    · have hroom : findFree first < first.length := by
        rw [hfirst, findFree_eq runs (fun r hr => (hruns r hr).not_zero)]
        simp
      rw [decide_eq_true hroom] at harray
      obtain rfl : first = array := by simpa using harray
      rw [hfirst] at hfits
      obtain ⟨runs', k', hins, -, hne, hok, -, hblocks, hcover⟩ :=
        insertRun_spec runs hruns k run hrun hfits
      refine ⟨insertRun first (findFree first) run :: arrays, runs', ?_, ⟨k' + n, ?_⟩, hne, hok,
        hblocks, hcover⟩
      · rw [insertIndirect, if_pos hroom]
      · rw [flatten_cons, hfirst, hins, hn, nil_append, append_assoc, replicate_append_replicate]

/-! ## Streams -/

/-- The runs a stream owns: the direct ones, and the indirect blocks with the runs in them. -/
def ownedRuns (data : data_stream) : List block_run :=
  data.direct ++ if data.indirect.IsZero then [] else data.indirect :: data.arrays.flatten

/-- A well-formed stream: `ds` are its direct runs, `is` its indirect ones. It has indirect
blocks exactly when it has indirect runs, and then the direct array is full. -/
structure data_stream.Valid (volume : Allocator σ) (data : data_stream)
    (ds is : List block_run) : Prop where
  direct_ok : ∀ r ∈ ds, r.Ok
  indirect_ok : ∀ r ∈ is, r.Ok
  direct_le : ds.length ≤ NUM_DIRECT_BLOCKS
  direct_eq : data.direct = ds ++ List.replicate (NUM_DIRECT_BLOCKS - ds.length) block_run.zero
  direct_range : data.max_direct_range = blocksOf ds * volume.BlockSize
  no_indirect : is = [] → data.indirect.IsZero = true ∧ data.max_indirect_range = 0
  has_indirect : is ≠ [] → data.indirect.length = 4 ∧ ds.length = NUM_DIRECT_BLOCKS ∧
    data.max_indirect_range = data.max_direct_range + blocksOf is * volume.BlockSize ∧
    Holds data.arrays is

/-- The bytes the blocks of the stream can hold. -/
def capacity (volume : Allocator σ) (ds is : List block_run) : Nat :=
  (blocksOf ds + blocksOf is) * volume.BlockSize

theorem data_stream.Valid.indirect_not_zero {ds is : List block_run}
    (h : data.Valid volume ds is) (his : is ≠ []) : data.indirect.IsZero = false := by
  have := (h.has_indirect his).1
  simp only [block_run.IsZero, decide_eq_false_iff_not]
  omega

theorem data_stream.Valid.cover_eq {ds is : List block_run}
    (h : data.Valid volume ds is) (group : Int) (i : Nat) :
    cover (ownedRuns data) group i =
      cover ds group i + if is = [] then 0 else cover (data.indirect :: is) group i := by
  unfold ownedRuns
  rw [cover_append, h.direct_eq, cover_append, cover_zeros, Nat.add_zero]
  by_cases his : is = []
  · rw [if_pos (h.no_indirect his).1, if_pos his, cover_nil]
  · obtain ⟨k, hk⟩ := (h.has_indirect his).2.2.2
    rw [h.indirect_not_zero his, if_neg his, if_neg (by simp), cover_cons, cover_cons, hk,
      cover_append, cover_zeros, Nat.add_zero]

theorem blocksOf_pos (hruns : ∀ r ∈ runs, r.Ok) (hne : runs ≠ []) : 0 < blocksOf runs := by
  cases runs with
  | nil => exact absurd rfl hne
  | cons run runs =>
    have := (hruns run (by simp)).pos
    rw [blocksOf_cons]
    omega

section

variable (hcorrect : volume.Correct used) (data : data_stream) (ds is : List block_run) (h : data.Valid volume ds is) (size : Nat) (s : σ)
include hcorrect h

theorem shrinkIndirect_spec
    (ho : Owns used others s (ownedRuns data)) :
    ∃ is', (shrinkIndirect volume data size s).1.Valid volume ds is' ∧
      Owns used others (shrinkIndirect volume data size s).2
        (ownedRuns (shrinkIndirect volume data size s).1) ∧
      (shrinkIndirect volume data size s).1.max_direct_range = data.max_direct_range ∧
      (size ≤ data.max_direct_range → is' = []) ∧
      (size ≤ capacity volume ds is → size ≤ capacity volume ds is') := by
  have hb : 0 < volume.BlockSize := by have := hcorrect.block_size; omega
  by_cases hsize : data.max_indirect_range > size
  · have his : is ≠ [] := by
      intro hnil
      have := (h.no_indirect hnil).2
      omega
    obtain ⟨hlength, hfull, hrange, hholds⟩ := h.has_indirect his
    obtain ⟨k, hk⟩ := hholds
    have hflat := freeArrays_flatten volume size data.arrays is
      (fun r hr => (h.indirect_ok r hr).not_zero) ⟨k, hk⟩ data.max_direct_range
      data.max_indirect_range s
    have ho' : Owns used others s (is ++ data.indirect :: ds) := by
      refine ho.congr fun group i => ?_
      rw [h.cover_eq, if_neg his, cover_append, cover_cons, cover_cons]
      omega
    obtain ⟨h₁, h₂, h₃⟩ := FreeStreamArray_spec size hb hcorrect is h.indirect_ok k
      data.max_direct_range data.max_indirect_range s hrange _ ho'
    rw [hk] at hflat
    rw [hflat] at h₁ h₂ h₃
    simp only at h₁ h₂ h₃
    have hok := @trimRuns_ok _ size hb data.max_direct_range is h.indirect_ok
    have hle := @le_trimRuns _ size hb data.max_direct_range is h.indirect_ok
    have hnil := fun hs => @trimRuns_of_le _ size data.max_direct_range hs hb
      is h.indirect_ok
    generalize trimRuns volume.BlockSize size data.max_direct_range is = kept at *
    unfold shrinkIndirect
    rw [if_pos hsize]
    simp only
    generalize freeArrays volume size data.arrays data.max_direct_range
      data.max_indirect_range s = r at *
    have hcap : size ≤ capacity volume ds is → size ≤ capacity volume ds kept := by
      unfold capacity
      rw [Nat.add_mul, Nat.add_mul, ← h.direct_range]
      exact hle
    by_cases hkept : kept = []
    · rw [if_pos (by rw [h₂, hkept, blocksOf_nil, Nat.zero_mul, Nat.add_zero])]
      have hv : ({ data with
          arrays := r.1
          indirect := block_run.zero
          max_indirect_range := 0 } : data_stream).Valid volume ds [] :=
        ⟨h.direct_ok, by simp, h.direct_le, h.direct_eq, h.direct_range,
          fun _ => ⟨rfl, rfl⟩, fun hne => absurd rfl hne⟩
      refine ⟨[], hv, ?_, rfl, fun _ => rfl, hkept ▸ hcap⟩
      rw [hkept, nil_append] at h₃
      exact (h₃.free hcorrect (by omega)).congr fun group i => by
        rw [hv.cover_eq, if_pos rfl, Nat.add_zero]
    · have hpos := Nat.mul_pos (blocksOf_pos hok hkept) hb
      rw [if_neg (by omega)]
      have hv : ({ data with
          arrays := r.1
          max_indirect_range := r.2.2.1 } : data_stream).Valid volume ds kept :=
        ⟨h.direct_ok, hok, h.direct_le, h.direct_eq, h.direct_range,
          fun hn => absurd hn hkept, fun _ => ⟨hlength, hfull, h₂, _, h₁⟩⟩
      refine ⟨kept, hv, ?_, rfl, fun hs => absurd (hnil hs) hkept, hcap⟩
      refine h₃.congr fun group i => ?_
      have hc := hv.cover_eq group i
      rw [if_neg hkept] at hc
      rw [hc, cover_append, cover_cons, cover_cons]
      simp only
      omega
  · unfold shrinkIndirect
    rw [if_neg hsize]
    refine ⟨is, h, ho, rfl, fun hs => ?_, id⟩
    by_contra his
    have hpos := Nat.mul_pos (blocksOf_pos h.indirect_ok his) hb
    have := (h.has_indirect his).2.2.1
    omega

theorem shrinkDirect_spec
    (his : size ≤ data.max_direct_range → is = [])
    (ho : Owns used others s (ownedRuns data)) :
    ∃ ds', (shrinkDirect volume data size s).1.Valid volume ds' is ∧
      Owns used others (shrinkDirect volume data size s).2
        (ownedRuns (shrinkDirect volume data size s).1) ∧
      (size = 0 → ds' = []) ∧
      (size ≤ capacity volume ds is → size ≤ capacity volume ds' is) := by
  have hb : 0 < volume.BlockSize := by have := hcorrect.block_size; omega
  by_cases hsize : data.max_direct_range > size
  · obtain rfl := his (by omega)
    have ho' : Owns used others s (ds ++ []) := ho.congr fun group i => by
      rw [h.cover_eq, if_pos rfl, append_nil, Nat.add_zero]
    obtain ⟨h₁, h₂, h₃⟩ := FreeStreamArray_spec size hb hcorrect ds h.direct_ok
      (NUM_DIRECT_BLOCKS - ds.length) 0 data.max_direct_range s
      (by rw [h.direct_range, Nat.zero_add]) [] ho'
    have hok := @trimRuns_ok _ size hb 0 ds h.direct_ok
    have hle := @le_trimRuns _ size hb 0 ds h.direct_ok
    have hnil := fun hs => @trimRuns_of_le _ size 0 hs hb ds h.direct_ok
    have hlength := trimRuns_length volume.BlockSize size 0 ds
    rw [← h.direct_eq] at h₁ h₂ h₃
    generalize trimRuns volume.BlockSize size 0 ds = kept at *
    have hdirect := h.direct_le
    unfold shrinkDirect
    rw [if_pos hsize]
    simp only
    have hv : ({ data with
        direct := (FreeStreamArray volume size data.direct 0 data.max_direct_range s).1
        max_direct_range := (FreeStreamArray volume size data.direct 0
          data.max_direct_range s).2.2.1 } : data_stream).Valid volume kept [] := by
      refine ⟨hok, by simp, by omega, ?_, by rw [h₂, Nat.zero_add],
        fun _ => h.no_indirect rfl, fun hne => absurd rfl hne⟩
      rw [h₁, show ds.length + (NUM_DIRECT_BLOCKS - ds.length) - kept.length =
        NUM_DIRECT_BLOCKS - kept.length by omega]
    refine ⟨kept, hv, ?_, fun hs => hnil (by omega), fun hs => ?_⟩
    · rw [append_nil] at h₃
      exact h₃.congr fun group i => by rw [hv.cover_eq, if_pos rfl, Nat.add_zero]
    · unfold capacity at hs ⊢
      rw [blocksOf_nil, Nat.add_zero] at hs ⊢
      have := hle (by omega)
      omega
  · unfold shrinkDirect
    rw [if_neg hsize]
    refine ⟨ds, h, ho, fun hs => ?_, id⟩
    by_contra hne
    have hpos := Nat.mul_pos (blocksOf_pos h.direct_ok hne) hb
    have := h.direct_range
    omega

/-- **`ShrinkStream()`** keeps the ownership, and leaves room for the size and, for size 0,
nothing. -/
theorem ShrinkStream_spec
    (ho : Owns used others s (ownedRuns data)) :
    ∃ ds' is', (ShrinkStream volume data size s).1.Valid volume ds' is' ∧
      Owns used others (ShrinkStream volume data size s).2
        (ownedRuns (ShrinkStream volume data size s).1) ∧
      (ShrinkStream volume data size s).1.size = size ∧
      (size = 0 → ds' = [] ∧ is' = []) ∧
      (size ≤ capacity volume ds is → size ≤ capacity volume ds' is') := by
  obtain ⟨is', hv, ho', hrange, hnil, hcap⟩ := shrinkIndirect_spec hcorrect data ds is h size s ho
  obtain ⟨ds', hv', ho'', hzero, hcap'⟩ := shrinkDirect_spec hcorrect _ ds is' hv size _
    (fun hs => hnil (by omega)) ho'
  refine ⟨ds', is', ?_, ho'', rfl, fun hs => ⟨hzero hs, hnil (by omega)⟩, fun hs => hcap' (hcap hs)⟩
  exact ⟨hv'.direct_ok, hv'.indirect_ok, hv'.direct_le, hv'.direct_eq, hv'.direct_range,
    hv'.no_indirect, hv'.has_indirect⟩

end

end

end BFS

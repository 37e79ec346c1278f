import OpenBeOS.Kernel.ModuleTables
import OpenBeOS.Lib.Tally

/-! # The life of a module

`Sound` is the invariant of `get_module` and `put_module`: the counts are the gets that no put has
followed, and a module with such a get is ready and its file loaded. A `get_module` that fails
behind the lock breaks it, as it has counted already or keeps the lock.
-/

namespace Kernel

open Reachable Function List Option

namespace Modules

variable {s s' : Modules} {path name : Str} {loading : Loading} {res : Int} {m lm : Nat}

/-! ## The calls of `std_ops` -/

/-- The calls for one module. -/
def opsOf (ops : List (Nat × StdOp)) (m : Nat) : List StdOp :=
  (ops.filter fun op => op.1 = m).map Prod.snd

/-- `B_MODULE_INIT` is the first one, and they alternate. -/
def Alternating (ops : List StdOp) : Prop := ops.IsChain (· ≠ ·) ∧ ops.head? ≠ some .B_MODULE_UNINIT

/-- The module is ready if the last call was `B_MODULE_INIT`. -/
def OpsOk (ops : List StdOp) (state : module_state) : Prop :=
  Alternating ops ∧ (ops.getLast? = some .B_MODULE_INIT ↔ state = .MOD_RDY)

theorem opsOf_append_self (ops : List (Nat × StdOp)) (m : Nat) (op : StdOp) :
    opsOf (ops ++ [(m, op)]) m = opsOf ops m ++ [op] := by
  unfold opsOf
  rw [filter_append, map_append]
  simp

theorem opsOf_append_of_ne (ops : List (Nat × StdOp)) {m k : Nat} (hk : k ≠ m) (op : StdOp) :
    opsOf (ops ++ [(m, op)]) k = opsOf ops k := by
  unfold opsOf
  rw [filter_append, map_append]
  simp [Ne.symm hk]

variable {result : Except ModuleError Unit} {ops : List StdOp} {state : module_state} {t t' : Table}
  {n : Nat}

theorem Alternating.snoc (h : Alternating ops) {op : StdOp}
    (hlast : ops.getLast? ≠ some op) (hfirst : ops = [] → op = .B_MODULE_INIT) :
    Alternating (ops ++ [op]) := by
  constructor
  · rw [isChain_append]
    refine ⟨h.1, isChain_singleton _, fun x hx y hy => ?_⟩
    obtain rfl : op = y := Option.some.inj hy
    rintro rfl
    exact hlast hx
  · cases ops with
    | nil =>
      rw [hfirst rfl]
      exact nofun
    | cons x xs => exact h.2

theorem OpsOk.init (h : OpsOk ops state)
    (hstate : state ≠ .MOD_RDY) : OpsOk (ops ++ [.B_MODULE_INIT]) .MOD_RDY := by
  refine ⟨h.1.snoc (fun hlast => hstate (h.2.mp hlast)) fun _ => rfl, ?_⟩
  rw [List.getLast?_concat]
  exact iff_of_true rfl rfl

theorem OpsOk.uninit (h : OpsOk ops .MOD_RDY)
    (hstate : state ≠ .MOD_RDY) : OpsOk (ops ++ [.B_MODULE_UNINIT]) state := by
  have hlast := h.2.mpr rfl
  refine ⟨h.1.snoc ?_ fun hnil => ?_, ?_⟩
  · rw [hlast]
    exact nofun
  · rw [hnil] at hlast
    cases hlast
  · rw [List.getLast?_concat]
    exact iff_of_false nofun hstate

/-! ## The gets of a file -/

/-- The gets of the modules whose `module` is the file. -/
def fileGets (s : Modules) (f : Nat) : Nat :=
  ∑ m ∈ Finset.range s.known.made, if s.module_file m = some f then s.gets m else 0

theorem fileGets_grow {f : Nat} (hmade : s'.known.made = s.known.made + 1) (hgets : s'.gets = s.gets)
    (hfile : ∀ m < s.known.made, s'.module_file m = s.module_file m)
    (hnew : s.gets s.known.made = 0) : s'.fileGets f = s.fileGets f := by
  unfold fileGets
  rw [hmade, Finset.sum_range_succ, hgets, hnew, ite_self, Nat.add_zero]
  exact Finset.sum_congr rfl fun m hm => by rw [hfile m (Finset.mem_range.mp hm)]

/-! ## The invariant -/

structure Sound (s : Modules) : Prop where
  tables : s.Tables
  names : ∀ m < s.known.made, ∀ n < s.known.made, s.known.key m = s.known.key n → m = n
  paths : ∀ f ∈ s.loaded, ∀ g ∈ s.loaded, s.files.key f = s.files.key g → f = g
  nodup : s.loaded.Nodup
  unknown : ∀ m, s.known.made ≤ m → s.gets m = 0 ∧ opsOf s.ops m = []
  ref_cnt : ∀ m < s.known.made, s.ref_cnt m = s.gets m
  file_ref_cnt : ∀ f ∈ s.loaded, s.file_ref_cnt f = s.fileGets f
  ready : ∀ m, 0 < s.gets m → s.state m = .MOD_RDY
  held : ∀ m, 0 < s.gets m → ∃ f ∈ s.loaded, s.module_file m = some f ∧ s.files.key f = s.file m
  ops : ∀ m < s.known.made, OpsOk (opsOf s.ops m) (s.state m)

theorem Sound.known_of_gets (h : s.Sound) (hm : 0 < s.gets m) : m < s.known.made := by
  by_contra hnot
  have hzero := (h.unknown m (Nat.le_of_not_lt hnot)).1
  omega

/-! ## Files -/

theorem load_words (ht' : ((t.create path).hash_insert t.made).insque t.made = some t') :
    t'.made = t.made + 1 ∧ t'.key = update t.key t.made path ∧
      t'.buckets (bucket path) = some (.elem t.made) := by
  unfold Table.insque at ht'
  obtain ⟨link, -, rfl⟩ := map_eq_some_iff.mp ht'
  have hkey : update t.key t.made path t.made = path := update_self ..
  refine ⟨rfl, rfl, ?_⟩
  show update t.buckets (bucket (update t.key t.made path t.made))
    (some (.elem t.made)) (bucket path) = _
  rw [hkey, update_self]

theorem Sound.load (h : s.Sound) (hpath : ∀ f ∈ s.loaded, s.files.key f ≠ path)
    (hload : s.load_module_file path loading = some s') : s'.Sound := by
  have htables := (h.tables.load hload).1
  unfold load_module_file at hload
  split at hload
  · obtain ⟨files, hfiles, rfl⟩ := map_eq_some_iff.mp hload
    obtain ⟨-, hkey, -⟩ := load_words hfiles
    have hnew : s.files.made ∉ s.loaded := fun hin => Nat.lt_irrefl _ (h.tables.loaded _ hin)
    have hold : ∀ f ∈ s.loaded, f ≠ s.files.made := fun f hf heq => hnew (heq ▸ hf)
    have hkey_new : files.key s.files.made = path := by rw [hkey, update_self]
    have hkey_old : ∀ f ∈ s.loaded, files.key f = s.files.key f := fun f hf => by
      rw [hkey, update_of_ne (hold f hf)]
    refine ⟨htables, h.names, ?_, nodup_cons.mpr ⟨hnew, h.nodup⟩, h.unknown, h.ref_cnt, ?_,
      h.ready, ?_, h.ops⟩
    · intro f hf g hg hfg
      change files.key f = files.key g at hfg
      rcases mem_cons.mp hf with rfl | hf <;> rcases mem_cons.mp hg with rfl | hg
      · rfl
      · rw [hkey_new, hkey_old g hg] at hfg
        exact absurd hfg.symm (hpath g hg)
      · rw [hkey_new, hkey_old f hf] at hfg
        exact absurd hfg (hpath f hf)
      · rw [hkey_old f hf, hkey_old g hg] at hfg
        exact h.paths f hf g hg hfg
    · intro f hf
      show update s.file_ref_cnt s.files.made 0 f = (s.fileGets f : Int)
      rcases mem_cons.mp hf with rfl | hf
      · rw [update_self]
        have hnone : s.fileGets s.files.made = 0 := by
          refine Finset.sum_eq_zero fun m _ => ?_
          split
          · rename_i hfile
            by_contra hgets
            obtain ⟨f, hf, hmodule, -⟩ := h.held m (Nat.pos_of_ne_zero hgets)
            rw [hfile] at hmodule
            exact hnew (Option.some.inj hmodule ▸ hf)
          · rfl
        rw [hnone]
        rfl
      · rw [update_of_ne (hold f hf)]
        exact h.file_ref_cnt f hf
    · intro m hm
      obtain ⟨f, hf, hmodule, hkeym⟩ := h.held m hm
      exact ⟨f, mem_cons_of_mem _ hf, hmodule, (hkey_old f hf).trans hkeym⟩
  · cases hload
    exact h

theorem remque_words (h : t.remque n = some t') : t'.key = t.key ∧ t'.made = t.made := by
  unfold Table.remque at h
  obtain ⟨_, -, h⟩ := bind_eq_some_iff.mp h
  obtain ⟨_, -, rfl⟩ := map_eq_some_iff.mp h
  exact ⟨rfl, rfl⟩

theorem hash_remove_words (h : t.hash_remove n = some t') : t'.key = t.key ∧ t'.made = t.made := by
  unfold Table.hash_remove at h
  obtain ⟨⟨last, found⟩, -, h⟩ := map_eq_some_iff.mp h
  cases found with
  | none => exact h ▸ ⟨rfl, rfl⟩
  | some i => cases last <;> exact h ▸ ⟨rfl, rfl⟩

/-- A file without gets may go. -/
theorem Sound.unload (h : s.Sound) (hfinds : s.files.Finds (· ∈ s.loaded) path)
    (hunload : s.unload_module_file path = some s') : s'.Sound := by
  have htables := h.tables.unload hunload
  unfold unload_module_file at hunload
  rcases hfinds with ⟨n, hlookup, hn, -⟩ | ⟨hlookup, -⟩
  · rw [hlookup, bind_some] at hunload
    dsimp only at hunload
    split at hunload
    · cases hunload
      exact h
    · rename_i hzero
      obtain ⟨files, hremque, hunload⟩ := bind_eq_some_iff.mp hunload
      obtain ⟨files', hremove, rfl⟩ := map_eq_some_iff.mp hunload
      obtain ⟨hkey, -⟩ := remque_words hremque
      obtain ⟨hkey', -⟩ := hash_remove_words hremove
      have hsame : files'.key = s.files.key := hkey'.trans hkey
      have hsub : ∀ f ∈ s.loaded.erase n, f ∈ s.loaded := fun f hf => mem_of_mem_erase hf
      refine ⟨htables, h.names, ?_, h.nodup.erase n, h.unknown, h.ref_cnt,
        fun f hf => h.file_ref_cnt f (hsub f hf), h.ready, ?_, h.ops⟩
      · intro f hf g hg hfg
        change files'.key f = files'.key g at hfg
        rw [hsame] at hfg
        exact h.paths f (hsub f hf) g (hsub g hg) hfg
      · intro m hm
        obtain ⟨f, hf, hmodule, hkeym⟩ := h.held m hm
        have hcount := h.file_ref_cnt n hn
        have hle : (if s.module_file m = some n then s.gets m else 0) ≤ s.fileGets n :=
          Finset.single_le_sum (f := fun m => if s.module_file m = some n then s.gets m else 0)
            (fun _ _ => Nat.zero_le _) (Finset.mem_range.mpr (h.known_of_gets hm))
        have hfn : f ≠ n := by
          rintro rfl
          have hnone : s.file_ref_cnt f = 0 := not_not.mp hzero
          change 0 < s.gets m at hm
          rw [if_pos hmodule] at hle
          omega
        refine ⟨f, (mem_erase_of_ne hfn).mpr hf, hmodule, ?_⟩
        show files'.key f = s.file m
        rw [hsame]
        exact hkeym
  · rw [hlookup] at hunload
    cases hunload
    exact h

/-! ## Modules -/

/-- A module becomes known, and its `ref_cnt` happens to be 0. -/
theorem Sound.info (h : s.Sound) {keep memory : Bool}
    (hsafe : (∀ m < s.known.made, s.known.key m ≠ name) → memory = true →
      s.ref_cnt s.known.made = 0)
    (hinfo : s.simple_module_info name keep path memory = some (s', result)) : s'.Sound := by
  have htables := h.tables.info hinfo
  unfold simple_module_info at hinfo
  obtain ⟨found, hfound, hinfo⟩ := bind_eq_some_iff.mp hinfo
  cases found with
  | some n =>
    cases hinfo
    exact h
  | none =>
    dsimp only at hinfo
    split at hinfo
    · rename_i hmemory
      obtain ⟨known, hknown, hs'⟩ := map_eq_some_iff.mp hinfo
      cases hs'
      obtain ⟨-, -, hkey, hmade⟩ := Table.insert_words hknown
      obtain ⟨hgets, hops⟩ := h.unknown s.known.made (Nat.le_refl _)
      have hkey_new : (known.hash_insert s.known.made).key s.known.made = name := by
        rw [hkey, update_self]
      have hkey_old : ∀ m < s.known.made, (known.hash_insert s.known.made).key m =
          s.known.key m := fun m hm => by rw [hkey, update_of_ne (Nat.ne_of_lt hm)]
      have habsent : ∀ m < s.known.made, s.known.key m ≠ name := by
        rcases h.tables.known.finds name with ⟨n, hn, -⟩ | ⟨-, habsent⟩
        · rw [hfound] at hn
          cases Option.some.inj hn
        · exact habsent
      have hzero := hsafe habsent hmemory
      refine ⟨htables, ?_, h.paths, h.nodup, ?_, ?_, ?_, ?_, ?_, ?_⟩
      · intro m hm n hn hmn
        dsimp only at hm hn hmn
        rw [hmade] at hm hn
        rcases Nat.lt_succ_iff_lt_or_eq.mp hm with hm | rfl <;>
          rcases Nat.lt_succ_iff_lt_or_eq.mp hn with hn | rfl
        · rw [hkey_old m hm, hkey_old n hn] at hmn
          exact h.names m hm n hn hmn
        · rw [hkey_new, hkey_old m hm] at hmn
          exact absurd hmn (habsent m hm)
        · rw [hkey_new, hkey_old n hn] at hmn
          exact absurd hmn.symm (habsent n hn)
        · rfl
      · intro m hm
        dsimp only at hm
        rw [hmade] at hm
        exact h.unknown m (by omega)
      · intro m hm
        dsimp only at hm
        rw [hmade] at hm
        show s.ref_cnt m = s.gets m
        rcases Nat.lt_succ_iff_lt_or_eq.mp hm with hm | rfl
        · exact h.ref_cnt m hm
        · rw [hzero, hgets]
          rfl
      · intro f hf
        refine (h.file_ref_cnt f hf).trans (congrArg Int.ofNat (Eq.symm ?_))
        exact fileGets_grow hmade rfl
          (fun m hm => update_of_ne (Nat.ne_of_lt hm) _ _) hgets
      · intro m hm
        have hne : m ≠ s.known.made := Nat.ne_of_lt (h.known_of_gets hm)
        show update s.state s.known.made _ m = _
        rw [update_of_ne hne]
        exact h.ready m hm
      · intro m hm
        have hne : m ≠ s.known.made := Nat.ne_of_lt (h.known_of_gets hm)
        show ∃ f ∈ s.loaded, update s.module_file s.known.made none m = some f ∧
          s.files.key f = update s.file s.known.made path m
        rw [update_of_ne hne, update_of_ne hne]
        exact h.held m hm
      · intro m hm
        dsimp only at hm
        rw [hmade] at hm
        show OpsOk (opsOf s.ops m) (update s.state s.known.made _ m)
        rcases Nat.lt_succ_iff_lt_or_eq.mp hm with hm | rfl
        · rw [update_of_ne (Nat.ne_of_lt hm)]
          exact h.ops m hm
        · rw [update_self, hops]
          exact ⟨⟨isChain_nil, nofun⟩, iff_of_false nofun nofun⟩
    · cases hinfo
      exact h

/-! ## `get_module` -/

/-- The words of the modules and the calls, which `find_file` leaves alone. -/
structure SameModules (s s' : Modules) : Prop where
  known : s'.known = s.known
  file : s'.file = s.file
  state : s'.state = s.state
  module_file : s'.module_file = s.module_file
  gets : s'.gets = s.gets
  ops : s'.ops = s.ops
  modules_lock : s'.modules_lock = s.modules_lock

theorem SameModules.load (h : s.load_module_file path loading = some s') : s.SameModules s' := by
  unfold load_module_file at h
  split at h
  · obtain ⟨_, -, rfl⟩ := map_eq_some_iff.mp h
    exact ⟨rfl, rfl, rfl, rfl, rfl, rfl, rfl⟩
  · cases h
    exact ⟨rfl, rfl, rfl, rfl, rfl, rfl, rfl⟩

theorem Sound.lock (h : s.Sound) (n : Nat) : Sound { s with modules_lock := n } :=
  ⟨h.tables.same rfl rfl rfl, h.names, h.paths, h.nodup, h.unknown, h.ref_cnt, h.file_ref_cnt,
    h.ready, h.held, h.ops⟩

/-- The file is found, if it is loaded or can be. -/
theorem Sound.find (h : s.Sound) {lm : Option Nat} (hfinds : s.files.Finds (· ∈ s.loaded) path)
    (hok : (∀ f ∈ s.loaded, s.files.key f ≠ path) → loading.ok = true)
    (hfind : s.find_file path loading = some (s', lm)) :
    s'.Sound ∧ s.SameModules s' ∧ ∃ f ∈ s'.loaded, lm = some f ∧ s'.files.key f = path := by
  unfold find_file at hfind
  rcases hfinds with ⟨n, hlookup, hn, hkey⟩ | ⟨hlookup, habsent⟩
  · rw [hlookup] at hfind
    cases hfind
    exact ⟨h, ⟨rfl, rfl, rfl, rfl, rfl, rfl, rfl⟩, n, hn, rfl, hkey⟩
  · rw [hlookup, bind_some] at hfind
    obtain ⟨s₁, hload, hfind⟩ := bind_eq_some_iff.mp hfind
    obtain ⟨lm', hlm, hs'⟩ := map_eq_some_iff.mp hfind
    obtain ⟨rfl, rfl⟩ := Prod.mk.inj hs'
    refine ⟨h.load habsent hload, .load hload, s.files.made, ?_⟩
    unfold load_module_file at hload
    rw [if_pos (hok habsent)] at hload
    obtain ⟨files, hfiles, rfl⟩ := map_eq_some_iff.mp hload
    obtain ⟨-, hkey, hbucket⟩ := load_words hfiles
    have hnew : files.key s.files.made = path := by rw [hkey, update_self]
    refine ⟨mem_cons_self, ?_, hnew⟩
    -- the new file is the first one of its bucket
    change files.hash_lookup path = some lm' at hlm
    unfold Table.hash_lookup at hlm
    rw [hbucket, Table.lookupFrom, if_pos hnew] at hlm
    exact (Option.some.inj hlm).symm

/-- The gets of a module become `n`, and both counts change by the difference. -/
theorem Sound.recount (h : s.Sound) (hm : m < s.known.made) {f n l : Nat} (hf : f ∈ s.loaded)
    (hkey : s.files.key f = s.file m) {d : Int} (hd : (n : Int) = s.gets m + d)
    {ops : List (Nat × StdOp)} {k : Nat → Bool}
    (hops : OpsOk (opsOf ops m) state) (hothers : ∀ j, j ≠ m → opsOf ops j = opsOf s.ops j)
    (hready : 0 < n → state = .MOD_RDY) :
    Sound { s.addRefs m f d with
      module_file := update s.module_file m (some f)
      gets := update s.gets m n
      state := update s.state m state
      ops, keep_loaded := k, modules_lock := l } := by
  have hterm : ∀ g, (if s.module_file m = some g then s.gets m else 0) =
      if f = g then s.gets m else 0 := by
    intro g
    rcases Nat.eq_zero_or_pos (s.gets m) with hzero | hpos
    · rw [hzero, ite_self, ite_self]
    · obtain ⟨f', hf', hmodule, hkey'⟩ := h.held m hpos
      obtain rfl := h.paths f' hf' f hf (hkey'.trans hkey.symm)
      rw [hmodule]
      simp only [Option.some.injEq]
  refine ⟨h.tables.same rfl rfl rfl, h.names, h.paths, h.nodup, ?_, ?_, ?_, ?_, ?_, ?_⟩
  · intro j hj
    have hne : j ≠ m := fun heq => Nat.not_lt_of_le (heq ▸ hj) hm
    show update s.gets m n j = 0 ∧ opsOf ops j = []
    rw [update_of_ne hne, hothers j hne]
    exact h.unknown j hj
  · intro j hj
    show update s.ref_cnt m (s.ref_cnt m + d) j = (update s.gets m n j : Nat)
    by_cases hjm : j = m
    · rw [hjm, update_self, update_self, h.ref_cnt m hm, hd]
    · rw [update_of_ne hjm, update_of_ne hjm]
      exact h.ref_cnt j hj
  · intro g hg
    have hcount := h.file_ref_cnt g hg
    have hrest : ∀ j, j ≠ m → (fun j => if update s.module_file m (some f) j = some g
        then update s.gets m n j else 0) j =
        (fun j => if s.module_file j = some g then s.gets j else 0) j := fun j hj => by
      dsimp only
      rw [update_of_ne hj, update_of_ne hj]
    have hsum := Tally.sum_change hm hrest
    rw [hterm g, update_self, update_self] at hsum
    simp only [Option.some.injEq] at hsum
    change _ = ((∑ j ∈ Finset.range s.known.made, _ : Nat) : Int) at hcount
    show update s.file_ref_cnt f (s.file_ref_cnt f + d) g =
      ((∑ j ∈ Finset.range s.known.made, _ : Nat) : Int)
    by_cases hgf : f = g
    · subst hgf
      rw [if_pos rfl, if_pos rfl] at hsum
      rw [update_self]
      dsimp only
      omega
    · rw [if_neg hgf, if_neg hgf] at hsum
      rw [update_of_ne (Ne.symm hgf)]
      dsimp only
      omega
  · intro j hj
    change 0 < update s.gets m n j at hj
    show update s.state m state j = _
    by_cases hjm : j = m
    · rw [hjm, update_self] at hj ⊢
      exact hready hj
    · rw [update_of_ne hjm] at hj ⊢
      exact h.ready j hj
  · intro j hj
    change 0 < update s.gets m n j at hj
    show ∃ g ∈ s.loaded, update s.module_file m (some f) j = some g ∧ s.files.key g = s.file j
    by_cases hjm : j = m
    · rw [hjm, update_self]
      exact ⟨f, hf, rfl, hkey⟩
    · rw [update_of_ne hjm] at hj ⊢
      exact h.held j hj
  · intro j hj
    show OpsOk (opsOf ops j) (update s.state m state j)
    by_cases hjm : j = m
    · rw [hjm, update_self]
      exact hops
    · rw [update_of_ne hjm, hothers j hjm]
      exact h.ops j hj

/-- A module is ready, or its `B_MODULE_INIT` succeeds. -/
def Initialisable (s : Modules) (m : Nat) (res : Int) : Prop :=
  s.state m = .MOD_RDY ∨ (s.state m = .MOD_QUERIED ∨ s.state m = .MOD_LOADED) ∧ res = 0

theorem init_module_ok (hops : opsOf s.ops m = ops) (hok : OpsOk ops (s.state m))
    (hinit : s.Initialisable m res) :
    ∃ ops', s.init_module m res = ({ s.setState m .MOD_RDY with ops := ops' }, .ok ()) ∧
      OpsOk (opsOf ops' m) .MOD_RDY ∧ ∀ j, j ≠ m → opsOf ops' j = opsOf s.ops j := by
  subst hops
  unfold init_module
  rcases hinit with hstate | ⟨hstate, rfl⟩
  · have hsame : s.setState m .MOD_RDY = s := by
      unfold setState
      rw [← hstate, update_eq_self]
    rw [hstate] at hok ⊢
    exact ⟨s.ops, by rw [hsame], hok, fun _ _ => rfl⟩
  · refine ⟨s.ops ++ [(m, .B_MODULE_INIT)], ?_, ?_, fun j hj => opsOf_append_of_ne _ hj _⟩
    · rcases hstate with hstate | hstate <;> rw [hstate] <;> rfl
    · rw [opsOf_append_self]
      refine hok.init fun hready => ?_
      rcases hstate with hstate | hstate <;> rw [hstate] at hready <;> cases hready

/-- When `get_module` succeeds. -/
def GetsIt (s : Modules) (name : Str) (loading : Loading) (res : Int) : Prop :=
  ∀ m < s.known.made, s.known.key m = name → s.files.Finds (· ∈ s.loaded) (s.file m) ∧
    ((∀ f ∈ s.loaded, s.files.key f ≠ s.file m) → loading.ok = true) ∧ s.Initialisable m res

theorem Sound.get (h : s.Sound)
    (hsafe : s.GetsIt name loading res) (hget : s.get_module name loading res = some (s', result)) :
    s'.Sound ∧ s'.modules_lock = s.modules_lock := by
  unfold get_module at hget
  rcases h.tables.known.finds name with ⟨m, hlookup, hm, hname⟩ | ⟨hlookup, -⟩
  · obtain ⟨hfinds, hok, hinit⟩ := hsafe m hm hname
    rw [hlookup, bind_some] at hget
    obtain ⟨⟨s₁, lm⟩, hfind, hs'⟩ := map_eq_some_iff.mp hget
    obtain ⟨h₁, hsame, f, hf, rfl, hkey⟩ := (h.lock (s.modules_lock + 1)).find hfinds hok hfind
    have hm₁ : m < s₁.known.made := by
      rw [hsame.known]
      exact hm
    have hinit₁ : (s₁.take m f).Initialisable m res := by
      show s₁.state m = _ ∨ (s₁.state m = _ ∨ s₁.state m = _) ∧ _
      rw [hsame.state]
      exact hinit
    obtain ⟨ops, hready, hops, hothers⟩ := init_module_ok (s := s₁.take m f) rfl (h₁.ops m hm₁) hinit₁
    dsimp only at hs'
    rw [hready] at hs'
    cases hs'
    refine ⟨?_, ?_⟩
    · exact h₁.recount hm₁ hf (hkey.trans (congrFun hsame.file m).symm) (Int.natCast_succ _) hops
        hothers fun _ => rfl
    · show s₁.modules_lock - 1 = s.modules_lock
      rw [hsame.modules_lock]
      rfl
  · rw [hlookup] at hget
    cases hget
    exact ⟨h, rfl⟩

/-! ## `put_module` -/

/-- If the module goes, its file is found. -/
def PutsIt (s : Modules) (name : Str) : Prop :=
  ∀ m < s.known.made, s.known.key m = name → s.ref_cnt m = 1 → s.keep_loaded m = false →
    s.files.Finds (· ∈ s.loaded) (s.file m)

theorem unload_lock (h : s.unload_module_file path = some s') : s'.modules_lock = s.modules_lock := by
  unfold unload_module_file at h
  obtain ⟨found, -, h⟩ := bind_eq_some_iff.mp h
  cases found with
  | none => exact Option.some.inj h ▸ rfl
  | some n =>
    dsimp only at h
    split at h
    · exact Option.some.inj h ▸ rfl
    · obtain ⟨_, -, h⟩ := bind_eq_some_iff.mp h
      obtain ⟨_, -, rfl⟩ := map_eq_some_iff.mp h
      rfl

theorem Sound.put (h : s.Sound)
    (hgot : ∃ m < s.known.made, s.known.key m = name ∧ 0 < s.gets m) (hsafe : s.PutsIt name)
    (hput : s.put_module name res = some (s', result)) :
    s'.Sound ∧ s'.modules_lock = s.modules_lock := by
  obtain ⟨m, hm, hname, hgets⟩ := hgot
  obtain ⟨f, hf, hmodule, hkey⟩ := h.held m hgets
  have hstate := h.ready m hgets
  have hcount := h.ref_cnt m hm
  have hops := h.ops m hm
  have hd : ((s.gets m - 1 : Nat) : Int) = s.gets m + -1 := by omega
  have hsame : update s.module_file m (some f) = s.module_file := by
    rw [← hmodule, update_eq_self]
  have hlookup : s.known.hash_lookup name = some (some m) := by
    rcases h.tables.known.finds name with ⟨n, hlookup, hn, hkeyn⟩ | ⟨-, habsent⟩
    · rwa [h.names n hn m hm (hkeyn.trans hname.symm)] at hlookup
    · exact absurd hname (habsent m hm)
  unfold put_module at hput
  rw [hlookup, bind_some] at hput
  dsimp only at hput
  rw [hmodule, bind_some] at hput
  split at hput
  · rename_i hlast
    obtain ⟨hzero, hkeep⟩ := hlast
    change update s.ref_cnt m (s.ref_cnt m + -1) m = 0 at hzero
    rw [update_self] at hzero
    obtain ⟨s₁, huninit, hput⟩ := bind_eq_some_iff.mp hput
    obtain ⟨s₂, hunload, hs'⟩ := map_eq_some_iff.mp hput
    cases hs'
    have hfinds := hsafe m hm hname (by omega) hkeep
    have hnone : ¬ 0 < s.gets m - 1 := by omega
    unfold uninit_module at huninit
    have hready : (s.addRefs m f (-1)).state m = .MOD_RDY := hstate
    simp only [hready] at huninit
    have hlog : ∀ state, state ≠ module_state.MOD_RDY →
        OpsOk (opsOf (s.ops ++ [(m, .B_MODULE_UNINIT)]) m) state := fun state hne => by
      rw [opsOf_append_self]
      exact (hstate ▸ hops).uninit hne
    have h₁ : s₁.Sound ∧ s₁.files = s.files ∧ s₁.loaded = s.loaded ∧ s₁.file = s.file ∧
        s₁.modules_lock = s.modules_lock := by
      cases huninit
      split
      · refine ⟨?_, rfl, rfl, rfl, rfl⟩
        have hcounted := h.recount (n := s.gets m - 1) (l := s.modules_lock) (k := s.keep_loaded)
          hm hf hkey hd (hlog .MOD_LOADED (by simp)) (fun j hj => opsOf_append_of_ne _ hj _)
          fun hpos => absurd hpos hnone
        rw [hsame] at hcounted
        exact hcounted
      · refine ⟨?_, rfl, rfl, rfl, rfl⟩
        have hcounted := h.recount (n := s.gets m - 1) (l := s.modules_lock)
          (k := update s.keep_loaded m true) hm hf hkey hd (hlog .MOD_ERROR (by simp))
          (fun j hj => opsOf_append_of_ne _ hj _)
          fun hpos => absurd hpos hnone
        rw [hsame] at hcounted
        exact hcounted
    obtain ⟨h₁, hfiles, hloaded, hfile, hlock⟩ := h₁
    rw [hfile] at hunload
    refine ⟨h₁.unload ?_ hunload, (unload_lock hunload).trans hlock⟩
    rw [hfiles, hloaded]
    exact hfinds
  · cases hput
    have hcounted := h.recount (n := s.gets m - 1) (l := s.modules_lock) (k := s.keep_loaded)
      hm hf hkey hd (hstate ▸ hops) (fun _ _ => rfl) fun _ => rfl
    rw [hsame, ← hstate, update_eq_self] at hcounted
    exact ⟨hcounted, rfl⟩

/-! ## The runs -/

/-- What a call needs for the counts to stay right. -/
def Safe (s : Modules) : ModuleAction → Prop
  | .load_module_file path loading => loading.ok = true → ∀ f ∈ s.loaded, s.files.key f ≠ path
  | .unload_module_file path => s.files.Finds (· ∈ s.loaded) path
  | .simple_module_info name _ _ memory =>
    (∀ m < s.known.made, s.known.key m ≠ name) → memory = true → s.ref_cnt s.known.made = 0
  | .get_module name loading res => s.GetsIt name loading res
  | .put_module name _ => s.PutsIt name

theorem Sound.step (h : s.Sound) {a : ModuleAction} (hsafe : s.Safe a) (hstep : Step s a s') :
    s'.Sound ∧ s'.modules_lock = s.modules_lock := by
  cases a with
  | load_module_file path loading =>
    refine ⟨?_, (SameModules.load hstep).modules_lock⟩
    by_cases hok : loading.ok = true
    · exact h.load (hsafe hok) hstep
    · change s.load_module_file path loading = some s' at hstep
      unfold load_module_file at hstep
      rw [if_neg hok] at hstep
      exact Option.some.inj hstep ▸ h
  | unload_module_file path => exact ⟨h.unload hsafe hstep, unload_lock hstep⟩
  | simple_module_info name keep file memory =>
    obtain ⟨⟨s₁, result⟩, hinfo, rfl⟩ := map_eq_some_iff.mp hstep
    refine ⟨h.info hsafe hinfo, ?_⟩
    unfold simple_module_info at hinfo
    obtain ⟨found, -, hinfo⟩ := bind_eq_some_iff.mp hinfo
    cases found with
    | some n => exact congrArg (fun r => r.1.modules_lock) (Option.some.inj hinfo).symm
    | none =>
      dsimp only at hinfo
      split at hinfo
      · obtain ⟨_, -, hs'⟩ := map_eq_some_iff.mp hinfo
        exact congrArg (fun r => r.1.modules_lock) hs'.symm
      · exact congrArg (fun r => r.1.modules_lock) (Option.some.inj hinfo).symm
  | get_module name loading res =>
    obtain ⟨⟨s₁, result⟩, hget, rfl⟩ := map_eq_some_iff.mp hstep
    exact h.get hsafe hget
  | put_module name res =>
    simp only [Step, Modules.step] at hstep
    split at hstep
    · rename_i hgot
      obtain ⟨⟨s₁, result⟩, hput, rfl⟩ := map_eq_some_iff.mp hstep
      exact h.put hgot hsafe hput
    · cases hstep

theorem Sound.init (hinit : s.Init) : s.Sound := by
  have htables : s.Tables := Tables.reached (By.init hinit : By Init (fun _ _ => True) Step s)
  obtain ⟨⟨path, name, hfiles, hknown⟩, hloaded, hgets, hops, -⟩ := hinit
  have hmade : s.known.made = 0 := by
    rw [hknown]
    rfl
  have hnone : ∀ m, ¬ m < s.known.made := fun m hm => by omega
  have hnot : ∀ m, ¬ 0 < s.gets m := fun m hm => by
    rw [hgets m] at hm
    exact Nat.lt_irrefl 0 hm
  have hempty : ∀ f, f ∉ s.loaded := fun f hf => by
    rw [hloaded] at hf
    exact not_mem_nil hf
  refine ⟨htables, fun m hm => absurd hm (hnone m), fun f hf => absurd hf (hempty f), ?_,
    fun m _ => ⟨hgets m, ?_⟩, fun m hm => absurd hm (hnone m), fun f hf => absurd hf (hempty f),
    fun m hm => absurd hm (hnot m), fun m hm => absurd hm (hnot m), fun m hm => absurd hm (hnone m)⟩
  · rw [hloaded]
    exact nodup_nil
  · rw [hops]
    rfl

/-- The life of the modules and their files. `module_file` of a module with gets is the file with
its path. -/
structure LifeCycle (s : Modules) : Prop where
  alternating : ∀ m, Alternating (opsOf s.ops m)
  ready : ∀ m, 0 < s.gets m → s.state m = .MOD_RDY ∧ (opsOf s.ops m).getLast? = some .B_MODULE_INIT
  ref_cnt : ∀ m < s.known.made, s.ref_cnt m = s.gets m
  file_ref_cnt : ∀ f ∈ s.loaded, s.file_ref_cnt f =
    ((∑ m ∈ Finset.range s.known.made, if s.file m = s.files.key f then s.gets m else 0 : Nat) : Int)
  modules_lock : s.modules_lock = 0
  loaded : ∀ m, 0 < s.gets m → ∃ f ∈ s.loaded, s.files.key f = s.file m

theorem Sound.lifeCycle (h : s.Sound) (hlock : s.modules_lock = 0) : s.LifeCycle where
  alternating := fun m => by
    rcases Nat.lt_or_ge m s.known.made with hm | hm
    · exact (h.ops m hm).1
    · rw [(h.unknown m hm).2]
      exact ⟨isChain_nil, nofun⟩
  ready := fun m hm => by
    have hready := h.ready m hm
    exact ⟨hready, (h.ops m (h.known_of_gets hm)).2.mpr hready⟩
  ref_cnt := h.ref_cnt
  file_ref_cnt := fun f hf => by
    have hterm : s.fileGets f = ∑ m ∈ Finset.range s.known.made,
        if s.file m = s.files.key f then s.gets m else 0 := by
      refine Finset.sum_congr rfl fun m _ => ?_
      rcases Nat.eq_zero_or_pos (s.gets m) with hzero | hpos
      · rw [hzero, ite_self, ite_self]
      · obtain ⟨g, hg, hmodule, hkey⟩ := h.held m hpos
        by_cases hgf : g = f
        · rw [if_pos (hmodule.trans (congrArg some hgf)), if_pos (by rw [← hkey, hgf])]
        · rw [if_neg fun heq => hgf (Option.some.inj (hmodule.symm.trans heq)),
            if_neg fun heq => hgf (h.paths g hg f hf (hkey.trans heq))]
    rw [← hterm]
    exact h.file_ref_cnt f hf
  modules_lock := hlock
  loaded := fun m hm => by
    obtain ⟨f, hf, -, hkey⟩ := h.held m hm
    exact ⟨f, hf, hkey⟩

/-- In runs of calls that meet the conditions, modules and files live as they should. -/
theorem module_life_cycle (h : By Init Safe Step s) : s.LifeCycle := by
  have hsound := h.invariant (fun s => s.Sound ∧ s.modules_lock = 0)
    (fun s hinit => ⟨.init hinit, hinit.2.2.2.2⟩) fun s a s' hs hsafe hstep => by
      obtain ⟨hsound, hlock⟩ := hs.1.step hsafe hstep
      exact ⟨hsound, hlock.trans hs.2⟩
  exact hsound.1.lifeCycle hsound.2

instance decidableFinds (t : Table) (loaded : List Nat) (path : Str) :
    Decidable (t.Finds (· ∈ loaded) path) :=
  match hlookup : t.hash_lookup path with
  | none => .isFalse fun h => by
    unfold Table.Finds at h
    rw [hlookup] at h
    rcases h with ⟨_, hn, -⟩ | ⟨hn, -⟩ <;> cases hn
  | some none => decidable_of_iff (∀ n ∈ loaded, t.key n ≠ path) <| by
      unfold Table.Finds
      rw [hlookup]
      exact ⟨fun h => Or.inr ⟨rfl, h⟩, fun h => h.elim (fun ⟨_, hn, _⟩ => absurd hn nofun) And.right⟩
  | some (some n) => decidable_of_iff (n ∈ loaded ∧ t.key n = path) <| by
      unfold Table.Finds
      rw [hlookup]
      refine ⟨fun h => Or.inl ⟨n, rfl, h⟩, fun h => ?_⟩
      rcases h with ⟨_, hn, hmem⟩ | ⟨hn, -⟩
      · cases Option.some.inj hn
        exact hmem
      · cases hn

instance (s : Modules) : DecidablePred s.Safe := fun a => by
  cases a <;> unfold Safe <;>
    first
    | infer_instance
    | (unfold GetsIt Initialisable; infer_instance)
    | (unfold PutsIt; infer_instance)

/-- A module is got twice, and put. -/
theorem module_life_cycle_twice : ∃ s, By Init Safe Step s ∧ s.LifeCycle ∧ s.gets 0 = 1 := by
  have hexec : (exec (guarded Safe step)
      [.simple_module_info (str 65) false (str 66) true,
        .get_module (str 65) ⟨true, true, true⟩ 0, .get_module (str 65) ⟨true, true, true⟩ 0,
        .put_module (str 65) 0] moduleInit).map (fun s => s.gets 0) = some 1 := by decide +kernel
  obtain ⟨s, hs, hgets⟩ := map_eq_some_iff.mp hexec
  have hreach : By Init Safe Step s :=
    By.exec (fun _ _ _ => guarded_some) _ (.init init_moduleInit) hs
  exact ⟨s, hreach, module_life_cycle hreach, hgets⟩

/-- `B_MODULE_INIT` fails, and the module is counted. -/
theorem module_life_not_cycle : ¬ ∀ s, By Init (fun _ _ => True) Step s → s.LifeCycle := by
  intro hall
  have hexec : (exec step [.simple_module_info (str 65) false (str 66) true,
      .get_module (str 65) ⟨true, true, true⟩ (-1)] moduleInit).map
        (fun s => (s.known.made, s.ref_cnt 0, s.gets 0)) = some (1, 1, 0) := by decide +kernel
  obtain ⟨s, hs, hwords⟩ := map_eq_some_iff.mp hexec
  obtain ⟨hmade, hwords⟩ := Prod.mk.inj hwords
  obtain ⟨hcount, hgets⟩ := Prod.mk.inj hwords
  have hreach : By Init (fun _ _ => True) Step s :=
    By.exec (fun _ _ _ h => ⟨trivial, h⟩) _ (.init init_moduleInit) hs
  have hsame := (hall s hreach).ref_cnt 0 (by omega)
  rw [hcount, hgets] at hsame
  exact absurd hsame (by decide)

end Modules

end Kernel

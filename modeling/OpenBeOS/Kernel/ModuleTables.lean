import OpenBeOS.Kernel.Module
import OpenBeOS.Lib.Reachable
import OpenBeOS.Lib.RefCount

/-! # The tables of files and modules

A file gets into its bucket first and into the circular list then, which takes the pointer to the
next element of the bucket away: no null pointer ends a bucket any more. A module gets into the list
first, and the pointer that the list has is lost. So the tables are right while they are empty.
-/

namespace Kernel

open Chain Reachable Function List Option

namespace Table

variable {t t' : Table} {n : Nat} {str : Str}

theorem head_ne (n : Nat) : Node.head ≠ .elem n := nofun

/-! ## What the tables should be -/

/-- `hash_lookup` ends, and finds one of the elements with the string if there is one. -/
def Finds (t : Table) (live : Nat → Prop) (str : Str) : Prop :=
  (∃ n, t.hash_lookup str = some (some n) ∧ live n ∧ t.key n = str) ∨
    t.hash_lookup str = some none ∧ ∀ n, live n → t.key n ≠ str

/-- The circular list has just these elements. -/
def Circular (t : Table) (live : Nat → Prop) : Prop :=
  ∃ xs : List Nat, Leads t.next (t.next .head) (xs.map .elem) (some .head) ∧
    Leads t.prev (t.prev .head) (xs.map .elem).reverse (some .head) ∧ ∀ n, n ∈ xs ↔ live n

variable {live : Nat → Prop}

theorem finds_empty (key : Nat → Str) (hlive : ∀ n, ¬ live n) (str : Str) :
    (empty key).Finds live str :=
  Or.inr ⟨rfl, fun n hn => absurd hn (hlive n)⟩

theorem circular_empty (key : Nat → Str) (hlive : ∀ n, ¬ live n) : (empty key).Circular live :=
  ⟨[], rfl, rfl, fun n => iff_of_false not_mem_nil (hlive n)⟩

/-! ## Buckets -/

theorem toNat_hash_mod (x : BitVec 32) (c : BitVec 8) :
    ((x <<< 4) ^^^ c.signExtend 32).toNat % 2 ^ 4 = c.toNat % 2 ^ 4 := by
  apply Nat.eq_of_testBit_eq
  intro i
  rw [Nat.testBit_mod_two_pow, Nat.testBit_mod_two_pow, BitVec.testBit_toNat, BitVec.testBit_toNat]
  by_cases hi : i < 4
  · have h32 : i < 32 := by omega
    have h8 : i < 8 := by omega
    rw [BitVec.getLsbD_xor, BitVec.getLsbD_shiftLeft, BitVec.getLsbD_signExtend]
    simp [hi, h32, h8]
  · simp [hi]

theorem bucket_snoc (xs : Str) (c : BitVec 8) :
    bucket (xs ++ [c]) = c.toNat % MODULES_HASH_SIZE := by
  unfold bucket hash_hash_str
  rw [foldl_append]
  exact toNat_hash_mod _ c

theorem bucket_lt (str : Str) : bucket str < MODULES_HASH_SIZE := Nat.mod_lt _ (by decide)

theorem exists_absent (t : Table) {b : Nat} (hb : b < MODULES_HASH_SIZE) :
    ∃ str, bucket str = b ∧ ∀ n < t.made, t.key n ≠ str := by
  let lengths := (List.range t.made).map fun n => (t.key n).length
  refine ⟨List.replicate lengths.sum 97 ++ [BitVec.ofNat 8 b], ?_, fun n hn heq => ?_⟩
  · have h8 : b < 2 ^ 8 := Nat.lt_trans hb (by decide)
    rw [bucket_snoc, BitVec.toNat_ofNat, Nat.mod_eq_of_lt h8, Nat.mod_eq_of_lt hb]
  · have hle : (t.key n).length ≤ lengths.sum :=
      RefCount.le_sum_map_of_mem (g := fun n => (t.key n).length) (mem_range.mpr hn)
    rw [heq, length_append, length_replicate, length_singleton] at hle
    omega

/-! ## The table of files -/

/-- The head, or an element that was made. -/
def Made (t : Table) : Node → Prop
  | .head => True
  | .elem n => n < t.made

/-- No pointer to the next element of a file is null. -/
structure Endless (t : Table) : Prop where
  next : ∀ i, t.Made i → ∃ j, t.next i = some j ∧ t.Made j
  prev : ∀ i j, t.Made i → t.prev i = some j → t.Made j
  buckets : ∀ b i, t.buckets b = some i → t.Made i
  nonempty : 0 < t.made → ∃ b < MODULES_HASH_SIZE, t.buckets b ≠ none
  unused : t.made = 0 → ∃ key, t = .empty key

theorem Endless.init (key : Nat → Str) : (empty key).Endless where
  next := fun i hi => by
    cases i with
    | head => exact ⟨.head, rfl, trivial⟩
    | elem n => exact absurd hi (Nat.not_lt_zero n)
  prev := fun i j hi hj => by
    cases i with
    | head =>
      cases hj
      trivial
    | elem n => exact absurd hi (Nat.not_lt_zero n)
  buckets := fun _ _ hb => absurd hb nofun
  nonempty := fun h => absurd h (Nat.lt_irrefl 0)
  unused := fun _ => ⟨key, rfl⟩

/-- A file is loaded. -/
theorem Endless.load (h : t.Endless)
    (ht' : ((t.create str).hash_insert t.made).insque t.made = some t') :
    t'.Endless ∧ 0 < t'.made := by
  have hgrow : ∀ i, t.Made i → (t.create str).Made i := by
    intro i hi
    cases i with
    | head => trivial
    | elem n => exact Nat.lt_succ_of_lt hi
  have hold : ∀ i, (t.create str).Made i → i ≠ .elem t.made → t.Made i := by
    intro i hi hin
    cases i with
    | head => trivial
    | elem n =>
      have hle : n < t.made + 1 := hi
      have hne : n ≠ t.made := fun heq => hin (congrArg Node.elem heq)
      exact Nat.lt_of_le_of_ne (Nat.le_of_lt_succ hle) hne
  have hnew : (t.create str).Made (.elem t.made) := Nat.lt_succ_self _
  obtain ⟨link, hlink, hlink_made⟩ := h.next .head trivial
  have hhead : ((t.create str).hash_insert t.made).next .head = some link :=
    by
    refine Eq.trans ?_ hlink
    exact update_of_ne (head_ne t.made) (t.buckets (bucket ((t.create str).key t.made))) t.next
  unfold insque at ht'
  rw [hhead] at ht'
  cases ht'
  refine ⟨⟨fun i hi => ?_, fun i j hi hj => ?_, fun b i hb => ?_, fun _ => ?_, fun hzero => ?_⟩,
    Nat.succ_pos _⟩
  · change ∃ j, update (update (update t.next (.elem t.made) _)
      (.elem t.made) (some link)) .head (some (.elem t.made)) i = some j ∧ (t.create str).Made j
    by_cases hihead : i = .head
    · rw [hihead, update_self]
      exact ⟨_, rfl, hnew⟩
    · rw [update_of_ne hihead]
      by_cases hin : i = .elem t.made
      · rw [hin, update_self]
        exact ⟨link, rfl, hgrow link hlink_made⟩
      · rw [update_of_ne hin, update_of_ne hin]
        obtain ⟨j, hj, hjmade⟩ := h.next i (hold i hi hin)
        exact ⟨j, hj, hgrow j hjmade⟩
  · change update (update t.prev (.elem t.made) (some .head)) link
      (some (.elem t.made)) i = some j at hj
    show (t.create str).Made j
    by_cases hilink : i = link
    · rw [hilink, update_self] at hj
      cases hj
      exact hnew
    · rw [update_of_ne hilink] at hj
      by_cases hin : i = .elem t.made
      · rw [hin, update_self] at hj
        cases hj
        trivial
      · rw [update_of_ne hin] at hj
        exact hgrow j (h.prev i j (hold i hi hin) hj)
  · show (t.create str).Made i
    change update t.buckets _ (some (.elem t.made)) b = some i at hb
    by_cases hbucket : b = bucket ((t.create str).key t.made)
    · rw [hbucket, update_self] at hb
      cases hb
      exact hnew
    · rw [update_of_ne hbucket] at hb
      exact hgrow i (h.buckets b i hb)
  · refine ⟨bucket ((t.create str).key t.made), bucket_lt _, ?_⟩
    show update t.buckets _ (some (.elem t.made)) _ ≠ none
    rw [update_self]
    exact nofun
  · exact absurd hzero (Nat.succ_ne_zero _)

theorem Endless.remque (h : t.Endless) (hn : n < t.made) (ht' : t.remque n = some t') :
    t'.Endless ∧ t'.made = t.made := by
  have hmade : t.Made (.elem n) := hn
  obtain ⟨link, hlink, hlink_made⟩ := h.next (.elem n) hmade
  unfold Table.remque at ht'
  rw [hlink, bind_some] at ht'
  obtain ⟨rlink, hrlink, rfl⟩ := map_eq_some_iff.mp ht'
  have hrlink_made := h.prev _ _ hmade hrlink
  refine ⟨⟨fun i hi => ?_, fun i j hi hj => ?_, h.buckets, h.nonempty, fun hzero => ?_⟩, rfl⟩
  · show ∃ j, update t.next rlink (some link) i = some j ∧ t.Made j
    by_cases hi' : i = rlink
    · rw [hi', update_self]
      exact ⟨link, rfl, hlink_made⟩
    · rw [update_of_ne hi']
      exact h.next i hi
  · change update (update t.prev link (some rlink)) (.elem n) none i = some j at hj
    by_cases hin : i = .elem n
    · rw [hin, update_self] at hj
      cases hj
    · rw [update_of_ne hin] at hj
      by_cases hi' : i = link
      · rw [hi', update_self] at hj
        cases hj
        exact hrlink_made
      · rw [update_of_ne hi'] at hj
        exact h.prev i j hi hj
  · change t.made = 0 at hzero
    omega

theorem Endless.hash_remove (h : t.Endless) (hn : n < t.made) (ht' : t.hash_remove n = some t') :
    t'.Endless ∧ t'.made = t.made := by
  obtain ⟨link, hlink, hlink_made⟩ := h.next (.elem n) hn
  unfold Table.hash_remove at ht'
  obtain ⟨⟨last, found⟩, hwalk, ht'⟩ := map_eq_some_iff.mp ht'
  cases found with
  | none =>
    obtain rfl := ht'
    exact ⟨h, rfl⟩
  | some i =>
    cases last with
    | none =>
      obtain rfl := ht'
      refine ⟨⟨h.next, h.prev, fun b i hb => ?_, fun hpos => ?_, fun hzero => ?_⟩, rfl⟩
      · change update t.buckets _ (t.next (.elem n)) b = some i at hb
        rw [hlink] at hb
        by_cases hbucket : b = bucket (t.key n)
        · rw [hbucket, update_self] at hb
          cases hb
          exact hlink_made
        · rw [update_of_ne hbucket] at hb
          exact h.buckets b i hb
      · refine ⟨bucket (t.key n), bucket_lt _, ?_⟩
        show update t.buckets _ (t.next (.elem n)) _ ≠ none
        rw [update_self, hlink]
        exact nofun
      · change t.made = 0 at hzero
        omega
    | some last =>
      obtain rfl := ht'
      refine ⟨⟨fun i hi => ?_, h.prev, h.buckets, h.nonempty, fun hzero => ?_⟩, rfl⟩
      · show ∃ j, update t.next last (t.next (.elem n)) i = some j ∧ t.Made j
        by_cases hi' : i = last
        · rw [hi', update_self]
          exact ⟨link, hlink, hlink_made⟩
        · rw [update_of_ne hi']
          exact h.next i hi
      · change t.made = 0 at hzero
        omega

theorem Endless.lookupFrom_ne (h : t.Endless) (habsent : ∀ n < t.made, t.key n ≠ str) :
    ∀ (fuel : Nat) (i : Node), t.Made i → t.lookupFrom str fuel (some i) ≠ some none
  | 0, _, _ => nofun
  | _ + 1, .head, _ => nofun
  | fuel + 1, .elem n, hn => by
    obtain ⟨j, hj, hjmade⟩ := h.next (.elem n) hn
    rw [lookupFrom, if_neg (habsent n hn), hj]
    exact h.lookupFrom_ne habsent fuel j hjmade

theorem Endless.lookupFrom_made (h : t.Endless) {m : Nat} :
    ∀ (fuel : Nat) (i : Node), t.Made i → t.lookupFrom str fuel (some i) = some (some m) →
      m < t.made
  | 0, _, _, hm => absurd hm nofun
  | _ + 1, .head, _, hm => absurd hm nofun
  | fuel + 1, .elem n, hn, hm => by
    obtain ⟨j, hj, hjmade⟩ := h.next (.elem n) hn
    rw [lookupFrom, hj] at hm
    split at hm
    · cases Option.some.inj hm
      exact hn
    · exact h.lookupFrom_made fuel j hjmade hm

theorem Endless.lookup_made (h : t.Endless) {m : Nat} (hm : t.hash_lookup str = some (some m)) :
    m < t.made := by
  unfold hash_lookup at hm
  cases hb : t.buckets (bucket str) with
  | none =>
    rw [hb] at hm
    cases hm
  | some i =>
    rw [hb] at hm
    exact h.lookupFrom_made _ i (h.buckets _ i hb) hm

theorem Endless.finds_not (h : t.Endless) (hmade : 0 < t.made)
    (hlive : ∀ n, live n → n < t.made) : ¬ ∀ str, t.Finds live str := by
  intro hfinds
  obtain ⟨b, hb, hbucket⟩ := h.nonempty hmade
  obtain ⟨str, hstr, habsent⟩ := t.exists_absent hb
  obtain ⟨i, hi⟩ := ne_none_iff_exists'.mp hbucket
  rcases hfinds str with ⟨n, -, hn, hkey⟩ | ⟨hnone, -⟩
  · exact habsent n (hlive n hn) hkey
  · unfold hash_lookup at hnone
    rw [hstr, hi] at hnone
    exact h.lookupFrom_ne habsent _ i (h.buckets b i hi) hnone

/-! ## The table of modules -/

/-- The elements of a bucket, the last one first. -/
def chain (t : Table) (b : Nat) : List Nat :=
  (List.range t.made).reverse.filter fun n => bucket (t.key n) = b

theorem mem_chain {b : Nat} : n ∈ t.chain b ↔ n < t.made ∧ bucket (t.key n) = b := by
  unfold chain
  rw [mem_filter, mem_reverse, mem_range, decide_eq_true_iff]

theorem length_chain_le (t : Table) (b : Nat) : (t.chain b).length ≤ t.made := by
  have hle := length_filter_le (fun n => decide (bucket (t.key n) = b))
    (List.range t.made).reverse
  rw [length_reverse, length_range] at hle
  exact hle

/-- The buckets are as they should be; the list only has its last element. -/
structure Hashed (t : Table) : Prop where
  leads : ∀ b, Leads t.next (t.buckets b) ((t.chain b).map .elem) none
  first : t.next .head = if t.made = 0 then some .head else some (.elem (t.made - 1))
  older : ∀ n < t.made, t.next (.elem n) ≠ some .head
  older_made : ∀ n < t.made, ∀ k, t.next (.elem n) = some (.elem k) → k < t.made
  unused : t.made = 0 → ∃ key, t = .empty key

theorem Hashed.init (key : Nat → Str) : (Table.empty key).Hashed where
  leads := fun _ => rfl
  first := rfl
  older := fun _ hn => absurd hn (Nat.not_lt_zero _)
  older_made := fun _ hn => absurd hn (Nat.not_lt_zero _)
  unused := fun _ => ⟨key, rfl⟩

theorem insert_words (ht' : (t.create str).insque t.made = some t') :
    (∃ link, (t'.hash_insert t.made).next = update (update (update t.next (.elem t.made) link) .head
        (some (.elem t.made))) (.elem t.made) (t.buckets (bucket str))) ∧
    (t'.hash_insert t.made).buckets = update t.buckets (bucket str) (some (.elem t.made)) ∧
    (t'.hash_insert t.made).key = update t.key t.made str ∧
    (t'.hash_insert t.made).made = t.made + 1 := by
  unfold insque at ht'
  obtain ⟨link, -, rfl⟩ := map_eq_some_iff.mp ht'
  have hkey : update t.key t.made str t.made = str := update_self ..
  unfold hash_insert create
  dsimp only
  rw [hkey]
  exact ⟨⟨_, rfl⟩, rfl, rfl, rfl⟩

/-- A module becomes known. -/
theorem Hashed.insert (h : t.Hashed) (ht' : (t.create str).insque t.made = some t') :
    (t'.hash_insert t.made).Hashed := by
  obtain ⟨⟨link, hnext⟩, hbuckets, hkey, hmade⟩ := insert_words ht'
  generalize t'.hash_insert t.made = u at hnext hbuckets hkey hmade ⊢
  have hkey_new : u.key t.made = str := by rw [hkey, update_self]
  have hnext_new : u.next (.elem t.made) = t.buckets (bucket str) := by
    rw [hnext, update_self]
  -- the older elements are left alone
  have hkey_old : ∀ n < t.made, u.key n = t.key n := fun n hn => by
    rw [hkey, update_of_ne (Nat.ne_of_lt hn)]
  have hnext_old : ∀ n < t.made, u.next (.elem n) = t.next (.elem n) := by
    intro n hn
    have hne : Node.elem n ≠ .elem t.made := fun heq => Nat.ne_of_lt hn (Node.elem.inj heq)
    rw [hnext, update_of_ne hne, update_of_ne (head_ne n).symm, update_of_ne hne]
  have hmem : ∀ b i, i ∈ (t.chain b).map Node.elem → ∃ n < t.made, i = .elem n := by
    intro b i hi
    obtain ⟨n, hn, rfl⟩ := mem_map.mp hi
    exact ⟨n, (mem_chain.mp hn).1, rfl⟩
  have hbucket : ∀ b i, t.buckets b = some i → ∃ n < t.made, i = .elem n := by
    intro b i hi
    refine hmem b i ?_
    have hhead := (h.leads b).head
    rw [hi] at hhead
    exact mem_of_head? hhead.symm
  refine ⟨fun b => ?_, ?_, fun n hn => ?_, fun n hn k hk => ?_, fun hzero => ?_⟩
  · have hsame : Leads u.next (t.buckets b) ((t.chain b).map .elem) none := by
      refine (h.leads b).congr fun i hi => ?_
      obtain ⟨n, hn, rfl⟩ := hmem b i hi
      exact hnext_old n hn
    have hchain : (List.range t.made).reverse.filter (fun n => bucket (u.key n) = b) = t.chain b := by
      apply filter_congr
      intro n hn
      rw [hkey_old n (mem_range.mp (mem_reverse.mp hn))]
    unfold chain
    rw [hmade, range_succ, reverse_append, reverse_singleton, singleton_append,
      filter_cons, hchain, hkey_new, hbuckets]
    by_cases hb : b = bucket str
    · subst hb
      rw [update_self, if_pos (decide_eq_true rfl)]
      refine ⟨rfl, ?_⟩
      rw [hnext_new]
      exact hsame
    · rw [update_of_ne hb, if_neg (by simpa using Ne.symm hb)]
      exact hsame
  · rw [hnext, update_of_ne (head_ne _), update_self, hmade,
      if_neg (Nat.succ_ne_zero _), Nat.add_sub_cancel]
  · rw [hmade] at hn
    rcases Nat.lt_succ_iff_lt_or_eq.mp hn with hlt | rfl
    · rw [hnext_old n hlt]
      exact h.older n hlt
    · rw [hnext_new]
      intro hhead
      obtain ⟨k, -, hk⟩ := hbucket _ _ hhead
      exact head_ne k hk
  · rw [hmade] at hn ⊢
    rcases Nat.lt_succ_iff_lt_or_eq.mp hn with hlt | rfl
    · rw [hnext_old n hlt] at hk
      exact Nat.lt_succ_of_lt (h.older_made n hlt k hk)
    · rw [hnext_new] at hk
      obtain ⟨j, hj, hjk⟩ := hbucket _ _ hk
      cases hjk
      exact Nat.lt_succ_of_lt hj
  · rw [hmade] at hzero
    exact absurd hzero (Nat.succ_ne_zero _)

theorem lookupFrom_eq : ∀ {ns : List Nat} {fuel : Nat} {p : Option Node},
    Leads t.next p (ns.map .elem) none → ns.length < fuel →
      t.lookupFrom str fuel p = some (ns.find? fun n => t.key n = str)
  | _, 0, _, _, hfuel => absurd hfuel (Nat.not_lt_zero _)
  | [], fuel + 1, p, h, _ => by
    rw [show p = none from h]
    rfl
  | n :: ns, fuel + 1, p, h, hfuel => by
    rw [h.1, lookupFrom, List.find?_cons]
    by_cases hkey : t.key n = str
    · rw [if_pos hkey, decide_eq_true hkey]
    · rw [if_neg hkey, decide_eq_false hkey]
      exact lookupFrom_eq h.2 (Nat.lt_of_succ_lt_succ hfuel)

theorem Hashed.finds (h : t.Hashed) (str : Str) : t.Finds (· < t.made) str := by
  have hlookup : t.hash_lookup str = some ((t.chain (bucket str)).find? fun n => t.key n = str) :=
    lookupFrom_eq (h.leads _) (Nat.lt_succ_of_le (Nat.le_succ_of_le (t.length_chain_le _)))
  cases hfind : (t.chain (bucket str)).find? fun n => t.key n = str with
  | some n =>
    have hkey := List.find?_some hfind
    refine Or.inl ⟨n, by rw [hlookup, hfind], ?_, of_decide_eq_true hkey⟩
    exact (mem_chain.mp (mem_of_find?_eq_some hfind)).1
  | none =>
    refine Or.inr ⟨by rw [hlookup, hfind], fun n hn hkey => ?_⟩
    have hmem : n ∈ t.chain (bucket str) := mem_chain.mpr ⟨hn, by rw [hkey]⟩
    exact List.find?_eq_none.mp hfind n hmem (decide_eq_true hkey)

theorem Hashed.leads_not (h : t.Hashed) : ∀ (is : List Node) (n : Nat), n < t.made →
    ¬ Leads t.next (some (.elem n)) is (some .head)
  | [], _, _ => nofun
  | i :: is, n, hn => by
    rintro ⟨hi, hrest⟩
    cases hi
    cases hnext : t.next (.elem n) with
    | none =>
      rw [hnext] at hrest
      cases is with
      | nil => cases hrest
      | cons j js => exact absurd hrest.1 nofun
    | some j =>
      rw [hnext] at hrest
      cases j with
      | head => exact h.older n hn hnext
      | elem k => exact h.leads_not is k (h.older_made n hn k hnext) hrest

theorem Hashed.circular_not (h : t.Hashed) (hmade : 0 < t.made) (live : Nat → Prop) :
    ¬ t.Circular live := by
  rintro ⟨xs, hnext, -⟩
  rw [h.first, if_neg (Nat.ne_of_gt hmade)] at hnext
  exact h.leads_not _ _ (by omega) hnext

end Table

namespace Modules

variable {s s' : Modules} {path name : Str} {loading : Loading} {res : Int} {m : Nat}

/-- The tables of files and of modules. -/
structure Tables (s : Modules) : Prop where
  files : s.files.Endless
  known : s.known.Hashed
  loaded : ∀ n ∈ s.loaded, n < s.files.made

/-! ## The calls -/

theorem Tables.load (h : s.Tables) (hload : s.load_module_file path loading = some s') :
    s'.Tables ∧ s.files.made ≤ s'.files.made := by
  unfold load_module_file at hload
  split at hload
  · obtain ⟨files, hfiles, rfl⟩ := map_eq_some_iff.mp hload
    obtain ⟨hendless, -⟩ := h.files.load hfiles
    have hmade : files.made = s.files.made + 1 := by
      unfold Table.insque at hfiles
      obtain ⟨_, -, rfl⟩ := map_eq_some_iff.mp hfiles
      rfl
    refine ⟨⟨hendless, h.known, fun n hn => ?_⟩, by show _ ≤ files.made; omega⟩
    show n < files.made
    rcases mem_cons.mp hn with rfl | hn
    · omega
    · have hlt := h.loaded n hn
      omega
  · cases hload
    exact ⟨h, Nat.le_refl _⟩

theorem Tables.unload (h : s.Tables) (hunload : s.unload_module_file path = some s') :
    s'.Tables := by
  unfold unload_module_file at hunload
  obtain ⟨found, hfound, hunload⟩ := bind_eq_some_iff.mp hunload
  cases found with
  | none =>
    cases hunload
    exact h
  | some n =>
    have hn := h.files.lookup_made hfound
    dsimp only at hunload
    split at hunload
    · cases hunload
      exact h
    · obtain ⟨files, hremque, hunload⟩ := bind_eq_some_iff.mp hunload
      obtain ⟨files', hremove, rfl⟩ := map_eq_some_iff.mp hunload
      obtain ⟨hendless, hmade⟩ := h.files.remque hn hremque
      obtain ⟨hendless', hmade'⟩ := hendless.hash_remove (hmade ▸ hn) hremove
      refine ⟨hendless', h.known, fun k hk => ?_⟩
      show k < files'.made
      rw [hmade', hmade]
      exact h.loaded k (mem_of_mem_erase hk)

variable {result : Except ModuleError Unit}

theorem Tables.info (h : s.Tables) {keep memory : Bool}
    (hinfo : s.simple_module_info name keep path memory = some (s', result)) : s'.Tables := by
  unfold simple_module_info at hinfo
  obtain ⟨found, -, hinfo⟩ := bind_eq_some_iff.mp hinfo
  cases found with
  | some n =>
    cases hinfo
    exact h
  | none =>
    dsimp only at hinfo
    split at hinfo
    · obtain ⟨known, hknown, hs'⟩ := map_eq_some_iff.mp hinfo
      cases hs'
      exact ⟨h.files, h.known.insert hknown, h.loaded⟩
    · cases hinfo
      exact h

theorem Tables.find (h : s.Tables) {lm : Option Nat}
    (hfind : s.find_file path loading = some (s', lm)) : s'.Tables := by
  unfold find_file at hfind
  obtain ⟨found, -, hfind⟩ := bind_eq_some_iff.mp hfind
  cases found with
  | some n =>
    cases hfind
    exact h
  | none =>
    obtain ⟨s₁, hload, hfind⟩ := bind_eq_some_iff.mp hfind
    obtain ⟨lm', -, hs'⟩ := map_eq_some_iff.mp hfind
    cases hs'
    exact (h.load hload).1

theorem Tables.same (h : s.Tables) (hfiles : s'.files = s.files) (hknown : s'.known = s.known)
    (hloaded : s'.loaded = s.loaded) : s'.Tables :=
  ⟨hfiles ▸ h.files, hknown ▸ h.known, fun n hn => hfiles ▸ h.loaded n (hloaded ▸ hn)⟩

theorem init_module_tables (s : Modules) (m : Nat) (res : Int) :
    (s.init_module m res).1.files = s.files ∧ (s.init_module m res).1.known = s.known ∧
      (s.init_module m res).1.loaded = s.loaded := by
  unfold init_module
  split
  · dsimp only
    split <;> exact ⟨rfl, rfl, rfl⟩
  · dsimp only
    split <;> exact ⟨rfl, rfl, rfl⟩
  all_goals exact ⟨rfl, rfl, rfl⟩

theorem uninit_module_tables (h : s.uninit_module m res = some s') :
    s'.files = s.files ∧ s'.known = s.known ∧ s'.loaded = s.loaded := by
  unfold uninit_module at h
  split at h
  · exact Option.some.inj h ▸ ⟨rfl, rfl, rfl⟩
  · exact Option.some.inj h ▸ ⟨rfl, rfl, rfl⟩
  · cases h
  · cases h
  · cases h
    split <;> exact ⟨rfl, rfl, rfl⟩
  · exact Option.some.inj h ▸ ⟨rfl, rfl, rfl⟩

theorem Tables.get (h : s.Tables)
    (hget : s.get_module name loading res = some (s', result)) : s'.Tables := by
  unfold get_module at hget
  obtain ⟨found, -, hget⟩ := bind_eq_some_iff.mp hget
  cases found with
  | none =>
    cases hget
    exact h
  | some m =>
    obtain ⟨⟨s₁, lm⟩, hfind, hs'⟩ := map_eq_some_iff.mp hget
    have hlocked : Tables { s with modules_lock := s.modules_lock + 1 } := h.same rfl rfl rfl
    have h₁ : s₁.Tables := hlocked.find hfind
    cases lm with
    | none =>
      cases hs'
      exact h₁
    | some lm =>
      obtain ⟨hfiles, hknown, hloaded⟩ := init_module_tables (s₁.take m lm) m res
      have h₂ : ((s₁.take m lm).init_module m res).1.Tables := h₁.same hfiles hknown hloaded
      have hs' : s' = (handOut m ((s₁.take m lm).init_module m res)).1 :=
        congrArg Prod.fst hs'.symm
      rw [hs']
      generalize (s₁.take m lm).init_module m res = r at h₂
      obtain ⟨s₂, _ | _⟩ := r
      · exact h₂
      · exact h₂.same rfl rfl rfl

theorem Tables.put (h : s.Tables)
    (hput : s.put_module name res = some (s', result)) : s'.Tables := by
  unfold put_module at hput
  obtain ⟨found, -, hput⟩ := bind_eq_some_iff.mp hput
  cases found with
  | none =>
    cases hput
    exact h
  | some m =>
    obtain ⟨lm, -, hput⟩ := bind_eq_some_iff.mp hput
    dsimp only at hput
    split at hput
    · obtain ⟨s₁, huninit, hput⟩ := bind_eq_some_iff.mp hput
      obtain ⟨s₂, hunload, hs'⟩ := map_eq_some_iff.mp hput
      cases hs'
      obtain ⟨hfiles, hknown, hloaded⟩ := uninit_module_tables huninit
      have h₁ : s₁.Tables := h.same hfiles hknown hloaded
      exact h₁.unload hunload
    · cases hput
      exact h.same rfl rfl rfl

theorem Tables.step (h : s.Tables) {a : ModuleAction} (hstep : Step s a s') : s'.Tables := by
  cases a with
  | load_module_file path loading => exact (h.load hstep).1
  | unload_module_file path => exact h.unload hstep
  | simple_module_info name keep file memory =>
    obtain ⟨⟨s₁, result⟩, hinfo, rfl⟩ := map_eq_some_iff.mp hstep
    exact h.info hinfo
  | get_module name loading res =>
    obtain ⟨⟨s₁, result⟩, hget, rfl⟩ := map_eq_some_iff.mp hstep
    exact h.get hget
  | put_module name res =>
    simp only [Step, Modules.step] at hstep
    split at hstep
    · obtain ⟨⟨s₁, result⟩, hput, rfl⟩ := map_eq_some_iff.mp hstep
      exact h.put hput
    · cases hstep

/-! ## The runs -/

theorem Tables.reached {ok : Modules → ModuleAction → Prop} (h : By Init ok Step s) : s.Tables := by
  refine h.invariant Tables (fun s hinit => ?_) fun _ _ _ hs _ hstep => hs.step hstep
  obtain ⟨⟨path, name, hfiles, hknown⟩, hloaded, -⟩ := hinit
  refine ⟨hfiles ▸ .init path, hknown ▸ .init name, fun n hn => ?_⟩
  rw [hloaded] at hn
  exact absurd hn not_mem_nil

/-- The tables and lists have the loaded files, and the known modules. -/
structure Consistent (s : Modules) : Prop where
  module_files : ∀ path, s.files.Finds (· ∈ s.loaded) path
  modules_list : ∀ name, s.known.Finds (· < s.known.made) name
  loaded_modules : s.files.Circular (· ∈ s.loaded)
  known_modules : s.known.Circular (· < s.known.made)

/-- The tables are consistent as long as no file was loaded and no module became known. Modules are
always found by their names. -/
theorem tables_consistent_iff (h : By Init (fun _ _ => True) Step s) :
    (s.Consistent ↔ s.files.made = 0 ∧ s.known.made = 0) ∧
      ∀ name, s.known.Finds (· < s.known.made) name := by
  have htables := Tables.reached h
  refine ⟨⟨fun hconsistent => ⟨?_, ?_⟩, fun hunused => ?_⟩, htables.known.finds⟩
  · by_contra hmade
    exact htables.files.finds_not (Nat.pos_of_ne_zero hmade) htables.loaded
      hconsistent.module_files
  · by_contra hmade
    exact htables.known.circular_not (Nat.pos_of_ne_zero hmade) _ hconsistent.known_modules
  · obtain ⟨path, hfiles⟩ := htables.files.unused hunused.1
    obtain ⟨name, hknown⟩ := htables.known.unused hunused.2
    have hloaded : ∀ n, n ∉ s.loaded := fun n hn => by
      have hlt := htables.loaded n hn
      omega
    have hmade : ∀ n, ¬ n < s.known.made := fun n hn => by omega
    refine ⟨?_, htables.known.finds, ?_, ?_⟩
    · rw [hfiles]
      exact Table.finds_empty path hloaded
    · rw [hfiles]
      exact Table.circular_empty path hloaded
    · have hcircular := Table.circular_empty name hmade
      rwa [← hknown] at hcircular

/-! ## A run with one file and one module -/

def moduleInit : Modules where
  files := .empty fun _ => []
  known := .empty fun _ => []
  file_ref_cnt := fun _ => 0
  file := fun _ => []
  ref_cnt := fun _ => 0
  state := fun _ => .MOD_QUERIED
  keep_loaded := fun _ => false
  module_file := fun _ => none
  loaded := []
  gets := fun _ => 0
  ops := []
  modules_lock := 0

theorem init_moduleInit : moduleInit.Init := ⟨⟨_, _, rfl, rfl⟩, rfl, fun _ => rfl, rfl, rfl⟩

/-- The paths and names of the runs, by one character. -/
def str (n : Nat) : Str := [BitVec.ofNat 8 n]

/-- A module is known, and found. -/
theorem tables_consistent_known : ∃ s, By Init (fun _ _ => True) Step s ∧ ¬ s.Consistent ∧
    s.known.Finds (· < s.known.made) (str 65) := by
  have hexec : (exec step [.simple_module_info (str 65) false (str 66) true] moduleInit).map
      (fun s => s.known.made) = some 1 := by decide +kernel
  obtain ⟨s, hs, hmade⟩ := map_eq_some_iff.mp hexec
  have hreach : By Init (fun _ _ => True) Step s :=
    By.exec (fun _ _ _ h => ⟨trivial, h⟩) _ (.init init_moduleInit) hs
  obtain ⟨hiff, hfinds⟩ := tables_consistent_iff hreach
  exact ⟨s, hreach, fun hconsistent => by have hzero := (hiff.mp hconsistent).2; omega,
    hfinds (str 65)⟩

/-- A file is loaded; then the look-up of another path in its bucket comes to the head of the list. -/
theorem tables_not_consistent : ¬ ∀ s, By Init (fun _ _ => True) Step s → s.Consistent := by
  intro hall
  have hexec : (exec step [.load_module_file (str 65) ⟨true, true, true⟩] moduleInit).map
      (fun s => s.files.hash_lookup (str 81)) = some none := by decide +kernel
  obtain ⟨s, hs, hlookup⟩ := map_eq_some_iff.mp hexec
  have hreach : By Init (fun _ _ => True) Step s :=
    By.exec (fun _ _ _ h => ⟨trivial, h⟩) _ (.init init_moduleInit) hs
  rcases (hall s hreach).module_files (str 81) with ⟨n, hn, -⟩ | ⟨hn, -⟩
  · rw [hlookup] at hn
    cases hn
  · rw [hlookup] at hn
    cases hn

end Modules

end Kernel

import Mathlib

/-! # Byte stuffing

Frames between flags, with the special bytes of the contents escaped, and a receiver that takes the
stream in chunks. The receiver stops at the end of a frame: what else a chunk holds is lost. It
therefore gets every frame exactly if the stream is cut behind each frame, which is shown by counting
the bytes that are left.
-/

namespace Stuffing

open List

/-- A code: `mask` changes the byte behind an `esc`, and changes it back. -/
structure Code (α : Type) where
  flag : α
  esc : α
  mask : α → α
  special : α → Bool
  mask_mask : ∀ b, mask (mask b) = b
  special_flag : special flag = true
  special_esc : special esc = true
  flag_ne_esc : flag ≠ esc

variable {α : Type} (c : Code α)

def stuff : List α → List α
  | [] => []
  | b :: bs => if c.special b then c.esc :: c.mask b :: stuff bs else b :: stuff bs

def frame (bs : List α) : List α := c.flag :: stuff c bs ++ [c.flag]

/-- What is received of a frame. -/
def received (bs : List α) : List α := c.flag :: bs ++ [c.flag]

/-- The stream is cut behind every frame. -/
def Aligned (reads : List (List α)) (frames : List (List α)) : Prop :=
  ∃ groups : List (List (List α)), groups.flatten = reads ∧ groups.map List.flatten = frames

/-- The bytes of the frame so far, and whether an `esc` has just been read. -/
structure Line (α : Type) where
  bytes : List α
  escaped : Bool

namespace Line

def fresh : Line α := ⟨[], false⟩

variable [DecidableEq α] (l : Line α)

def feed (b : α) : Line α :=
  if l.escaped then ⟨l.bytes ++ [c.mask b], false⟩
  else if b = c.esc then ⟨l.bytes, true⟩
  else ⟨l.bytes ++ [b], false⟩

/-- A flag that is not escaped ends the frame, unless it begins it. -/
def Completes (b : α) : Prop := l.escaped = false ∧ b = c.flag ∧ l.bytes ≠ []

instance (b : α) : Decidable (l.Completes c b) := inferInstanceAs (Decidable (_ ∧ _ ∧ _))

theorem length_le_feed (b : α) : l.bytes.length ≤ (l.feed c b).bytes.length := by
  unfold feed
  split
  · simp
  · split <;> simp

end Line

/-- The frames that are complete, and the most bytes that the buffer has held. -/
structure Receiver (α : Type) where
  line : Line α
  frames : List (List α)
  top : Nat

namespace Receiver

def fresh : Receiver α := ⟨.fresh, [], 0⟩

variable [DecidableEq α]

def feed (r : Receiver α) (b : α) : Receiver α :=
  { r with line := r.line.feed c b, top := max r.top (r.line.feed c b).bytes.length }

/-- The frame is done: the buffer is emptied. -/
def complete (r : Receiver α) : Receiver α :=
  { r with line := .fresh, frames := r.frames ++ [r.line.bytes] }

/-- A chunk is read up to the end of the frame. -/
def read (r : Receiver α) : List α → Receiver α
  | [] => r
  | b :: bs => if r.line.Completes c b then (r.feed c b).complete else read (r.feed c b) bs

def receive (r : Receiver α) (reads : List (List α)) : Receiver α := reads.foldl (read c) r

variable {c} {r : Receiver α} {l : Line α} {b : α} {bs rest : List α} {reads : List (List α)}

theorem receive_append (reads reads' : List (List α)) :
    r.receive c (reads ++ reads') = (r.receive c reads).receive c reads' := foldl_append

/-! ## Inside a frame -/

/-- No byte of the list completes a frame. -/
def Quiet (c : Code α) (l : Line α) : List α → Prop
  | [] => True
  | b :: bs => ¬ l.Completes c b ∧ Quiet c (l.feed c b) bs

theorem line_foldl_feed (bs : List α) (r : Receiver α) :
    (bs.foldl (feed c) r).line = bs.foldl (Line.feed c) r.line := by
  induction bs generalizing r with
  | nil => rfl
  | cons b bs ih => exact ih (r.feed c b)

theorem frames_foldl_feed (bs : List α) (r : Receiver α) :
    (bs.foldl (feed c) r).frames = r.frames := by
  induction bs generalizing r with
  | nil => rfl
  | cons b bs ih => exact ih (r.feed c b)

theorem length_le_foldl_feed (bs : List α) (l : Line α) :
    l.bytes.length ≤ (bs.foldl (Line.feed c) l).bytes.length := by
  induction bs generalizing l with
  | nil => exact Nat.le_refl _
  | cons b bs ih => exact Nat.le_trans (l.length_le_feed c b) (ih (l.feed c b))

theorem top_foldl_feed (bs : List α) (r : Receiver α) :
    (bs.foldl (feed c) r).top ≤ max r.top (bs.foldl (Line.feed c) r.line).bytes.length := by
  induction bs generalizing r with
  | nil => exact Nat.le_max_left _ _
  | cons b bs ih =>
    have hgrows := length_le_foldl_feed (c := c) bs (r.line.feed c b)
    have htop : (r.feed c b).top = max r.top (r.line.feed c b).bytes.length := rfl
    refine Nat.le_trans (ih (r.feed c b)) ?_
    show max (r.feed c b).top (bs.foldl (Line.feed c) (r.line.feed c b)).bytes.length ≤
      max r.top (bs.foldl (Line.feed c) (r.line.feed c b)).bytes.length
    omega

theorem read_quiet (hquiet : Quiet c r.line bs) (rest : List α) :
    r.read c (bs ++ rest) = (bs.foldl (feed c) r).read c rest := by
  induction bs generalizing r with
  | nil => rfl
  | cons b bs ih =>
    have hstep : r.read c (b :: bs ++ rest) = (r.feed c b).read c (bs ++ rest) := if_neg hquiet.1
    rw [hstep]
    exact ih hquiet.2

theorem Quiet.of_append {bs' : List α} (h : Quiet c l (bs ++ bs')) :
    Quiet c l bs ∧ Quiet c (bs.foldl (Line.feed c) l) bs' := by
  induction bs generalizing l with
  | nil => exact ⟨trivial, h⟩
  | cons b bs ih =>
    obtain ⟨hhead, htail⟩ := ih h.2
    exact ⟨⟨h.1, hhead⟩, htail⟩

omit [DecidableEq α] in
theorem cut_cases {chunk stream : List α} {flag : α} (h : chunk ++ stream = bs ++ flag :: rest) :
    (∃ bs', bs = chunk ++ bs' ∧ stream = bs' ++ flag :: rest) ∨
      ∃ lost, chunk = bs ++ flag :: lost ∧ lost ++ stream = rest := by
  rcases append_eq_append_iff.mp h with hshort | ⟨tail, hchunk, htail⟩
  · exact Or.inl hshort
  · cases tail with
    | nil => exact Or.inl ⟨[], by rw [hchunk, append_nil, append_nil], htail.symm⟩
    | cons b lost =>
      obtain ⟨rfl, hrest⟩ := List.cons.inj htail
      exact Or.inr ⟨lost, hchunk, hrest.symm⟩

/-- However the stream is cut, the frame is read up to its flag, and the rest of that chunk is
lost. -/
theorem receive_body (hquiet : Quiet c r.line bs)
    (hdone : (bs.foldl (Line.feed c) r.line).Completes c c.flag)
    (hreads : reads.flatten = bs ++ c.flag :: rest) :
    ∃ pre last lost post, reads = pre ++ (last ++ lost) :: post ∧
      pre.flatten ++ last = bs ++ [c.flag] ∧ lost ++ post.flatten = rest ∧
      r.receive c reads = (((bs ++ [c.flag]).foldl (feed c) r).complete).receive c post := by
  induction reads generalizing r bs with
  | nil => exact absurd (congrArg List.length hreads) (by simp)
  | cons chunk reads ih =>
    have hstep : r.receive c (chunk :: reads) = (r.read c chunk).receive c reads := rfl
    rcases cut_cases (flatten_cons.symm.trans hreads) with ⟨bs', hbs, hrest⟩ | hflag
    · subst hbs
      obtain ⟨hquietChunk, hquietRest⟩ := hquiet.of_append
      have hread : r.read c chunk = chunk.foldl (feed c) r := by
        have h := read_quiet hquietChunk []
        rwa [append_nil] at h
      have hline : (r.read c chunk).line = chunk.foldl (Line.feed c) r.line := by
        rw [hread, line_foldl_feed]
      rw [foldl_append, ← hline] at hdone
      rw [← hline] at hquietRest
      obtain ⟨pre, last, lost, post, hcut, hframe, hlost, hreceive⟩ := ih hquietRest hdone hrest
      refine ⟨chunk :: pre, last, lost, post, by rw [hcut]; rfl, ?_, hlost, ?_⟩
      · rw [flatten_cons, append_assoc, hframe, append_assoc]
      · rw [hstep, hreceive, hread]
        simp only [append_assoc, foldl_append]
    · obtain ⟨lost, hchunk, hrest⟩ := hflag
      refine ⟨[], bs ++ [c.flag], lost, reads, ?_, rfl, hrest, ?_⟩
      · rw [hchunk, append_assoc]
        rfl
      · have hcompletes : ((bs.foldl (feed c) r).line).Completes c c.flag := by
          rw [line_foldl_feed]
          exact hdone
        have hend : (bs.foldl (feed c) r).read c (c.flag :: lost) =
            ((bs.foldl (feed c) r).feed c c.flag).complete := if_pos hcompletes
        rw [hstep, hchunk, read_quiet hquiet, hend, foldl_append]
        rfl

/-! ## A stuffed frame -/

theorem feed_special (bs : List α) (b : α) : Line.feed c ⟨bs, false⟩ c.esc = ⟨bs, true⟩ ∧
      Line.feed c ⟨bs, true⟩ (c.mask b) = ⟨bs ++ [b], false⟩ := by
  unfold Line.feed
  refine ⟨?_, ?_⟩
  · rw [if_neg Bool.false_ne_true, if_pos rfl]
  · rw [if_pos rfl, c.mask_mask]

theorem feed_plain (bs : List α) (hspecial : ¬ c.special b = true) :
    Line.feed c ⟨bs, false⟩ b = ⟨bs ++ [b], false⟩ := by
  have hesc : b ≠ c.esc := fun h => hspecial (h ▸ c.special_esc)
  unfold Line.feed
  rw [if_neg Bool.false_ne_true, if_neg hesc]

theorem foldl_feed_stuff (bs content : List α) :
    (stuff c content).foldl (Line.feed c) ⟨bs, false⟩ = ⟨bs ++ content, false⟩ := by
  induction content generalizing bs with
  | nil => rw [append_nil]; rfl
  | cons b content ih =>
    unfold stuff
    split
    · obtain ⟨hesc, hmask⟩ := feed_special (c := c) bs b
      rw [foldl_cons, hesc, foldl_cons, hmask, ih, append_assoc]
      rfl
    · rename_i hspecial
      rw [foldl_cons, feed_plain bs hspecial, ih, append_assoc]
      rfl

theorem quiet_stuff (bs content : List α) : Quiet c ⟨bs, false⟩ (stuff c content) := by
  induction content generalizing bs with
  | nil => trivial
  | cons b content ih =>
    unfold stuff
    split
    · obtain ⟨hesc, hmask⟩ := feed_special (c := c) bs b
      refine ⟨fun h => c.flag_ne_esc h.2.1.symm, ?_⟩
      rw [hesc]
      refine ⟨fun h => Bool.false_ne_true h.1.symm, ?_⟩
      rw [hmask]
      exact ih _
    · rename_i hspecial
      refine ⟨fun h => hspecial (h.2.1 ▸ c.special_flag), ?_⟩
      rw [feed_plain bs hspecial]
      exact ih _

theorem feed_flag (bs : List α) : Line.feed c ⟨bs, false⟩ c.flag = ⟨bs ++ [c.flag], false⟩ := by
  unfold Line.feed
  rw [if_neg Bool.false_ne_true, if_neg c.flag_ne_esc]

theorem foldl_feed_body (content : List α) :
    (c.flag :: stuff c content).foldl (Line.feed c) .fresh = ⟨c.flag :: content, false⟩ := by
  have hflag : Line.feed c .fresh c.flag = ⟨[c.flag], false⟩ := feed_flag []
  rw [foldl_cons, hflag, foldl_feed_stuff]
  rfl

/-- Read from an empty buffer, a frame is received, and the rest of the chunk with its end is lost. -/
theorem receive_frame (hline : r.line = .fresh) {content : List α}
    (hreads : reads.flatten = frame c content ++ rest) :
    ∃ (pre : List (List α)) (last lost : List α) (post : List (List α)) (r' : Receiver α),
      reads = pre ++ (last ++ lost) :: post ∧
      pre.flatten ++ last = frame c content ∧ lost ++ post.flatten = rest ∧
      r.receive c reads = r'.receive c post ∧ r'.line = .fresh ∧
      r'.frames = r.frames ++ [received c content] ∧
      r'.top ≤ max r.top (content.length + 2) := by
  have hbody := foldl_feed_body (c := c) content
  have hquiet : Quiet c r.line (c.flag :: stuff c content) := by
    rw [hline]
    refine ⟨fun h => h.2.2 rfl, ?_⟩
    have hflag : Line.feed c .fresh c.flag = ⟨[c.flag], false⟩ := feed_flag []
    rw [hflag]
    exact quiet_stuff _ _
  have hdone : ((c.flag :: stuff c content).foldl (Line.feed c) r.line).Completes c c.flag := by
    rw [hline, hbody]
    exact ⟨rfl, rfl, nofun⟩
  have hsplit : reads.flatten = (c.flag :: stuff c content) ++ c.flag :: rest := by
    rw [hreads, frame, append_assoc]
    rfl
  obtain ⟨pre, last, lost, post, hcut, hframe, hlost, hreceive⟩ := receive_body hquiet hdone hsplit
  have hend : ((c.flag :: stuff c content ++ [c.flag]).foldl (feed c) r).line =
      ⟨received c content, false⟩ := by
    rw [line_foldl_feed, hline, foldl_append, hbody, foldl_cons, feed_flag]
    rfl
  refine ⟨pre, last, lost, post, _, hcut, hframe, hlost, hreceive, rfl, ?_, ?_⟩
  · show ((c.flag :: stuff c content ++ [c.flag]).foldl (feed c) r).frames ++
      [((c.flag :: stuff c content ++ [c.flag]).foldl (feed c) r).line.bytes] = _
    rw [hend, frames_foldl_feed]
  · have htop := top_foldl_feed (c := c) (c.flag :: stuff c content ++ [c.flag]) r
    rw [← line_foldl_feed, hend] at htop
    have hlength : (received c content).length = content.length + 2 := by
      simp [received]
    have hlength' : (({ bytes := received c content, escaped := false } : Line α)).bytes.length =
      content.length + 2 := hlength
    rw [hlength'] at htop
    exact htop

/-! ## What is lost -/

/-- The bytes that a stream stands for, an `esc` and what it escapes counted once. -/
def tokens (c : Code α) : Bool → List α → Nat
  | _, [] => 0
  | true, _ :: bs => 1 + tokens c false bs
  | false, b :: bs => if b = c.esc then tokens c true bs else 1 + tokens c false bs

theorem tokens_escaped (bs : List α) :
    tokens c false bs ≤ tokens c true bs ∧ tokens c true bs ≤ 1 + tokens c false bs := by
  induction bs with
  | nil => exact ⟨Nat.zero_le _, Nat.zero_le _⟩
  | cons b bs ih =>
    have hescaped : tokens c true (b :: bs) = 1 + tokens c false bs := rfl
    have hplain : tokens c false (b :: bs) =
      if b = c.esc then tokens c true bs else 1 + tokens c false bs := rfl
    rw [hescaped, hplain]
    split <;> omega

theorem tokens_le_append (lost bs : List α) : tokens c false bs ≤ tokens c false (lost ++ bs) := by
  induction lost with
  | nil => exact Nat.le_refl _
  | cons b lost ih =>
    have hescaped := (tokens_escaped (c := c) (lost ++ bs)).1
    have hplain : tokens c false (b :: lost ++ bs) =
      if b = c.esc then tokens c true (lost ++ bs) else 1 + tokens c false (lost ++ bs) := rfl
    rw [hplain]
    split <;> omega

theorem tokens_stuff (content bs : List α) :
    tokens c false (stuff c content ++ bs) = content.length + tokens c false bs := by
  induction content with
  | nil => exact (Nat.zero_add _).symm
  | cons b content ih =>
    unfold stuff
    rw [length_cons]
    split
    · have hpair : tokens c false (c.esc :: c.mask b :: stuff c content ++ bs) =
          1 + tokens c false (stuff c content ++ bs) := if_pos rfl
      omega
    · rename_i hspecial
      have hesc : b ≠ c.esc := fun h => hspecial (h ▸ c.special_esc)
      have hone : tokens c false (b :: stuff c content ++ bs) =
          1 + tokens c false (stuff c content ++ bs) := if_neg hesc
      omega

theorem tokens_flag (bs : List α) : tokens c false (c.flag :: bs) = 1 + tokens c false bs :=
  if_neg c.flag_ne_esc

theorem tokens_frame (content bs : List α) :
    tokens c false (frame c content ++ bs) = content.length + 2 + tokens c false bs := by
  have hframe : frame c content ++ bs = c.flag :: (stuff c content ++ c.flag :: bs) := by
    rw [frame, append_assoc]
    rfl
  rw [hframe, tokens_flag, tokens_stuff, tokens_flag]
  omega

theorem tokens_frames (contents : List (List α)) : tokens c false (contents.map (frame c)).flatten =
      (contents.map fun content => content.length + 2).sum := by
  induction contents with
  | nil => rfl
  | cons content contents ih =>
    rw [map_cons, flatten_cons, tokens_frame, ih, map_cons, sum_cons]

/-- The bytes received. -/
def weight (r : Receiver α) : Nat := (r.frames.map List.length).sum + r.line.bytes.length

omit [DecidableEq α] in
theorem weight_complete (r : Receiver α) : r.complete.weight = r.weight := by
  unfold weight complete
  rw [map_append, sum_append]
  simp [Line.fresh]

theorem weight_feed (b : α) (bs : List α) :
    (r.feed c b).weight + tokens c (r.feed c b).line.escaped bs =
      r.weight + tokens c r.line.escaped (b :: bs) := by
  unfold weight feed Line.feed
  cases hescaped : r.line.escaped with
  | true =>
    have htokens : tokens c true (b :: bs) = 1 + tokens c false bs := rfl
    rw [if_pos rfl, htokens]
    dsimp only
    rw [length_append, length_singleton]
    omega
  | false =>
    have htokens : tokens c false (b :: bs) =
      if b = c.esc then tokens c true bs else 1 + tokens c false bs := rfl
    rw [if_neg Bool.false_ne_true, htokens]
    split
    · rfl
    · dsimp only
      rw [length_append, length_singleton]
      omega

/-- Reading makes no bytes. -/
theorem weight_read (chunk bs : List α) :
    (r.read c chunk).weight + tokens c (r.read c chunk).line.escaped bs ≤
      r.weight + tokens c r.line.escaped (chunk ++ bs) := by
  induction chunk generalizing r with
  | nil => exact Nat.le_refl _
  | cons b chunk ih =>
    have hfeed := weight_feed (c := c) (r := r) b (chunk ++ bs)
    unfold read
    split
    · rename_i hcompletes
      have hline : (r.feed c b).line.escaped = false := by
        unfold feed Line.feed
        rw [if_neg (by rw [hcompletes.1]; exact Bool.false_ne_true),
          if_neg (by rw [hcompletes.2.1]; exact c.flag_ne_esc)]
      rw [hline] at hfeed
      rw [weight_complete]
      have hlost := tokens_le_append (c := c) chunk bs
      have hfresh : (r.feed c b).complete.line.escaped = false := rfl
      rw [hfresh, cons_append]
      omega
    · have hrest := ih (r := r.feed c b)
      rw [cons_append]
      omega

theorem weight_receive (reads : List (List α)) (r : Receiver α) :
    (r.receive c reads).weight ≤ r.weight + tokens c r.line.escaped reads.flatten := by
  induction reads generalizing r with
  | nil => exact Nat.le_add_right _ _
  | cons chunk reads ih =>
    have hread := weight_read (c := c) (r := r) chunk reads.flatten
    have hrest := ih (r.read c chunk)
    rw [flatten_cons]
    have hstep : r.receive c (chunk :: reads) = (r.read c chunk).receive c reads := rfl
    rw [hstep]
    omega

/-- A stream that is cut behind every frame is received. -/
theorem receive_aligned (contents : List (List α)) (hline : r.line = .fresh)
    (hnonempty : ∀ read ∈ reads, read ≠ []) (haligned : Aligned reads (contents.map (frame c))) :
    (r.receive c reads).frames = r.frames ++ contents.map (received c) ∧
      ∀ size, r.top ≤ size → (∀ content ∈ contents, content.length + 2 ≤ size) →
        (r.receive c reads).top ≤ size := by
  obtain ⟨groups, rfl, hgroups⟩ := haligned
  induction contents generalizing r groups with
  | nil =>
    have hnil : groups = [] := map_eq_nil_iff.mp hgroups
    subst hnil
    exact ⟨(append_nil _).symm, fun size htop _ => htop⟩
  | cons content contents ih =>
    cases groups with
    | nil => cases hgroups
    | cons group groups =>
      obtain ⟨hframe, hrest⟩ := List.cons.inj hgroups
      have hframe' : group.flatten = frame c content ++ [] := by
        rw [append_nil]
        exact hframe
      obtain ⟨pre, last, lost, post, r', hcut, -, hlost, hreceive, hline', hframes, htop⟩ :=
        receive_frame hline hframe'
      -- nothing is left behind the frame
      have hpost : post = [] := by
        have hempty := (append_eq_nil_iff.mp hlost).2
        cases post with
        | nil => rfl
        | cons read post =>
          have hread : read = [] := (append_eq_nil_iff.mp hempty).1
          refine absurd hread (hnonempty read ?_)
          rw [flatten_cons, hcut]
          simp
      rw [hpost] at hreceive
      have hgroup : r.receive c group = r' := hreceive
      obtain ⟨hall, hsize⟩ := ih (r := r') hline' groups hrest
        fun read hread => hnonempty read (mem_append_right _ hread)
      rw [flatten_cons, receive_append, hgroup]
      refine ⟨?_, fun size hr hcontents => ?_⟩
      · rw [hall, hframes, append_assoc]
        rfl
      · refine hsize size ?_ fun content' h => hcontents content' (mem_cons_of_mem _ h)
        have hfirst := hcontents content mem_cons_self
        omega

/-- Not more is received than was sent, and as much only if the stream is cut behind every frame. -/
theorem weight_receive_frames (contents : List (List α)) (hline : r.line = .fresh)
    (hnonempty : ∀ read ∈ reads, read ≠ [])
    (hreads : reads.flatten = (contents.map (frame c)).flatten) :
    (r.receive c reads).weight ≤ r.weight + (contents.map fun content => content.length + 2).sum ∧
      ((r.receive c reads).weight =
          r.weight + (contents.map fun content => content.length + 2).sum →
        Aligned reads (contents.map (frame c))) := by
  induction contents generalizing r reads with
  | nil =>
    have hnil : reads = [] := by
      cases reads with
      | nil => rfl
      | cons read reads =>
        have hread : read = [] := (append_eq_nil_iff.mp hreads).1
        exact absurd hread (hnonempty read mem_cons_self)
    subst hnil
    exact ⟨Nat.le_refl _, fun _ => ⟨[], rfl, rfl⟩⟩
  | cons content contents ih =>
    obtain ⟨pre, last, lost, post, r', hcut, hframe, hlost, hreceive, hline', hframes, -⟩ :=
      receive_frame hline hreads
    have hweight : r'.weight = r.weight + (content.length + 2) := by
      unfold weight
      rw [hframes, hline', hline, map_append, sum_append]
      simp [received, Line.fresh]
    rw [hreceive, map_cons, sum_cons, map_cons]
    cases lost with
    | nil =>
      have hpost : ∀ read ∈ post, read ≠ [] :=
        fun read hread => hnonempty read (hcut ▸ by simp [hread])
      obtain ⟨hle, haligned⟩ := ih hline' hpost hlost
      refine ⟨by omega, fun heq => ?_⟩
      obtain ⟨groups, hgroups, hmap⟩ := haligned (by omega)
      refine ⟨(pre ++ [last]) :: groups, ?_, ?_⟩
      · rw [flatten_cons, hgroups, hcut, append_nil, append_assoc]
        rfl
      · rw [map_cons, hmap, flatten_append, flatten_singleton, hframe]
    | cons b lost =>
      -- the first flag of the next frame is lost
      have hlt : (r'.receive c post).weight <
          r'.weight + (contents.map fun content => content.length + 2).sum := by
        have hpost := weight_receive (c := c) post r'
        have hescaped : r'.line.escaped = false := by
          rw [hline']
          rfl
        have hflag : b = c.flag := by
          cases contents with
          | nil => cases hlost
          | cons content' contents => exact (List.cons.inj hlost).1
        have hsum := tokens_frames (c := c) contents
        have hone : tokens c false (b :: lost ++ post.flatten) =
            1 + tokens c false (lost ++ post.flatten) := by
          rw [hflag]
          exact tokens_flag _
        have htail := tokens_le_append (c := c) lost post.flatten
        rw [hescaped] at hpost
        rw [← hlost] at hsum
        omega
      exact ⟨by omega, fun heq => by omega⟩

end Receiver

end Stuffing

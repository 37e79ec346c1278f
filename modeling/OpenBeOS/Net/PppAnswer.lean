import OpenBeOS.Net.PppOptions

/-! # The answer to a Configure-Request

A request of well-formed options, as it is decoded, and what the automaton sends. An option that is
accepted has no place in the Configure-Ack but for a magic number or an address, and an unknown one is
not rejected.
-/

namespace Ppp

open List FsmState Fsm

/-- A well-formed option. -/
structure ConfigOption where
  type : UInt8
  data : List UInt8
  small : data.length ≤ 253

namespace ConfigOption

/-- The length byte. -/
def len (o : ConfigOption) : Nat := o.data.length + 2

def bytes (o : ConfigOption) : List UInt8 := o.type :: UInt8.ofNat o.len :: o.data

end ConfigOption

/-- The option bytes of a request. -/
def optionBytes (os : List ConfigOption) : List UInt8 := os.flatMap ConfigOption.bytes

/-- What `fsm_rconfreq` gets of a request; nothing is ever put in the list of the Configure-Nak. -/
def decodeOf (handle : Nat → Nat → Handled) (os : List ConfigOption) : Option Decode :=
  (decodeConfig handle (4 + (optionBytes os).length) (optionBytes os)).map fun d => ⟨d.ack, [], d.rej⟩

/-- The options of known types that are allowed; LCP has no setting for most of them. -/
def lcp_options.allows (ao : lcp_options) (o : ConfigOption) : Bool :=
  match o.type.toNat with
  | LCPO_MRU | LCPO_ACCMAP | LCPO_MRRU | LCPO_ENDDISC => true
  | LCPO_MAGICNUM => ao.want_magic
  | LCPO_PROTOCOMP => ao.protocomp
  | LCPO_ACFCOMP => ao.acfcomp
  | LCPO_CALLBACK => ao.callback
  | _ => false

/-- Compression is never allowed. -/
def ipcp_options.allows (ao : ipcp_options) (o : ConfigOption) : Bool :=
  match o.type.toNat with
  | IPCP_ADDRESSES | IPCP_ADDRESS => ao.want_addr
  | IPCP_COMPPROT => false
  | _ => false

/-- The options that the Configure-Ack repeats. -/
def lcp_options.repeats (_ : lcp_options) (o : ConfigOption) : Prop := o.type.toNat = LCPO_MAGICNUM

def ipcp_options.repeats (_ : ipcp_options) (_ : ConfigOption) : Prop := True

/-- The options that are rejected as they are, where they are not allowed. -/
def lcp_options.rejects (_ : lcp_options) (o : ConfigOption) : Prop :=
  (o.type.toNat = LCPO_PROTOCOMP ∨ o.type.toNat = LCPO_ACFCOMP) ∧ o.data = []

def ipcp_options.rejects (_ : ipcp_options) (o : ConfigOption) : Prop :=
  o.type.toNat = IPCP_ADDRESSES ∨ o.type.toNat = IPCP_ADDRESS ∨ o.type.toNat = IPCP_COMPPROT

/-! ## The lists -/

variable {handle : Nat → Nat → Handled}

/-- What goes to the Configure-Ack of an option. -/
def ackOf (handle : Nat → Nat → Handled) (o : ConfigOption) : List UInt8 :=
  o.bytes.take (handle o.type.toNat o.len).ack

/-- What goes to the Configure-Reject of an option. -/
def rejOf (handle : Nat → Nat → Handled) (o : ConfigOption) : List UInt8 :=
  o.bytes.take (handle o.type.toNat o.len).rej

theorem lenAt_bytes (o : ConfigOption) (rest : List UInt8) : lenAt (o.bytes ++ rest) = o.len := by
  have hsmall := o.small
  show (UInt8.ofNat o.len).toNat = o.len
  rw [UInt8.toNat_ofNat']
  unfold ConfigOption.len
  omega

/-- No more of an option is copied than it has. -/
def CopiesWhole (handle : Nat → Nat → Handled) : Prop :=
  ∀ id len, 2 ≤ len → (handle id len).ack ≤ len ∧ (handle id len).rej ≤ len

theorem checkconfig_options (hcopies : CopiesWhole handle) (os : List ConfigOption)
    (rounds : Nat) (hrounds : (optionBytes os).length < rounds) (dec : Decoded) :
    ∃ inside, checkconfig handle rounds (optionBytes os) (optionBytes os).length dec =
      some ⟨dec.ack ++ os.flatMap (ackOf handle), dec.rej ++ os.flatMap (rejOf handle), inside⟩ := by
  induction os generalizing rounds dec with
  | nil =>
    obtain ⟨rounds, rfl⟩ : ∃ n, rounds = n + 1 := ⟨rounds - 1, by omega⟩
    refine ⟨dec.inside, ?_⟩
    rw [flatMap_nil, flatMap_nil, append_nil, append_nil]
    rfl
  | cons o os ih =>
    have hbytes : optionBytes (o :: os) = o.bytes ++ optionBytes os := flatMap_cons
    have hlen : o.bytes.length = o.len := rfl
    have hpos : 2 ≤ o.len := Nat.le_add_left ..
    rw [hbytes, length_append] at hrounds ⊢
    obtain ⟨rounds, rfl⟩ : ∃ n, rounds = n + 1 := ⟨rounds - 1, by omega⟩
    unfold checkconfig
    have htype : typeAt (o.bytes ++ optionBytes os) = o.type.toNat := rfl
    obtain ⟨hack, hrej⟩ := hcopies o.type.toNat o.len hpos
    rw [if_pos (by omega), lenAt_bytes, htype, drop_left' hlen, Int.natCast_add, hlen,
      Int.add_comm, Int.add_sub_cancel]
    dsimp only
    rw [take_append_of_le_length (hack.trans_eq hlen.symm),
      take_append_of_le_length (hrej.trans_eq hlen.symm)]
    obtain ⟨inside, heq⟩ := ih rounds (by omega) _
    refine ⟨inside, heq.trans ?_⟩
    dsimp only
    rw [append_assoc, append_assoc, flatMap_cons, flatMap_cons]
    rfl

theorem decodeOf_eq (hcopies : CopiesWhole handle) (os : List ConfigOption) :
    decodeOf handle os = some ⟨os.flatMap (ackOf handle), [], os.flatMap (rejOf handle)⟩ := by
  obtain ⟨inside, heq⟩ := checkconfig_options hcopies os (4 + (optionBytes os).length + 1)
    (by omega) ⟨[], [], true⟩
  unfold decodeOf decodeConfig
  rw [show ((4 + (optionBytes os).length : Nat) : Int) - 4 = (optionBytes os).length by omega, heq]
  rfl

theorem flatMap_length_le {os : List ConfigOption} {f g : ConfigOption → List UInt8}
    (hle : ∀ o ∈ os, (f o).length ≤ (g o).length) :
    (os.flatMap f).length ≤ (os.flatMap g).length := by
  induction os with
  | nil => exact Nat.le_refl _
  | cons o os ih =>
    obtain ⟨ho, hrest⟩ := forall_mem_cons.mp hle
    rw [flatMap_cons, flatMap_cons, length_append, length_append]
    exact Nat.add_le_add ho (ih hrest)

/-- Parts of options make up the same bytes as longer parts only if they are the same. -/
theorem flatMap_eq_iff {os : List ConfigOption} {f g : ConfigOption → List UInt8}
    (hle : ∀ o ∈ os, (f o).length ≤ (g o).length) :
    os.flatMap f = os.flatMap g ↔ ∀ o ∈ os, f o = g o := by
  induction os with
  | nil => exact ⟨fun _ => nofun, fun _ => rfl⟩
  | cons o os ih =>
    obtain ⟨ho, hrest⟩ := forall_mem_cons.mp hle
    rw [flatMap_cons, flatMap_cons, forall_mem_cons, ← ih hrest]
    refine ⟨fun heq => ?_, fun ⟨heq, heq'⟩ => by rw [heq, heq']⟩
    have hlen := congrArg List.length heq
    have hlen' := flatMap_length_le hrest
    rw [length_append, length_append] at hlen
    exact append_inj heq (by omega)

/-! ## The automaton -/

namespace Fsm

variable {f : Fsm}

section

variable (f : Fsm)

/-- What the automaton has sent itself. -/
def replies : List Call :=
  f.calls.filter fun c => match c with
    | .output .. => true
    | _ => false

theorem replies_call (c : Call) : (f.call c).replies =
    f.replies ++ [c].filter fun c => match c with
      | .output .. => true
      | _ => false :=
  filter_append ..

theorem replies_fsm_Close : f.fsm_Close.replies = f.replies := by
  unfold fsm_Close
  split <;> simp [fsm_newstate, replies, call]

theorem replies_fsm_sconfreq : f.fsm_sconfreq.replies = f.replies := by
  unfold fsm_sconfreq
  split
  · split
    · simp [replies, call]
    · exact replies_fsm_Close _
  · exact replies_fsm_Close _

theorem replies_afterRequest (ackaction : Bool) :
    (f.afterRequest ackaction).replies = f.replies := by
  unfold afterRequest
  split <;> (try split) <;> simp [fsm_newstate, replies, call]

theorem replies_countAnswers (dec : Decode) :
    (f.countAnswers dec).replies = f.replies := by
  unfold countAnswers
  dsimp only
  split <;> split <;> (try split) <;> (try split) <;>
    first
    | rfl
    | exact replies_fsm_Close _
    | exact (replies_fsm_Close _).trans (replies_fsm_Close _)

/-- A request is answered in these states. -/
def Answers : Prop :=
  f.state = STM_STOPPED ∨ f.state = STM_REQSENT ∨ f.state = STM_ACKRCVD ∨ f.state = STM_ACKSENT ∨
    f.state = STM_OPENED

/-- The other side has got a Configure-Ack. -/
def Acked : Prop := f.state = STM_ACKSENT ∨ f.state = STM_OPENED

end

theorem not_acked_fsm_Close (h : ¬ f.Acked) : ¬ f.fsm_Close.Acked := by
  unfold fsm_Close
  split <;> first | exact h | exact fun hacked => hacked.elim nofun nofun

theorem not_acked_afterRequest (f : Fsm) : ¬ (f.afterRequest false).Acked := by
  unfold afterRequest Acked
  split <;> simp_all [fsm_newstate]

theorem not_acked_countAnswers (h : ¬ f.Acked) (dec : Decode) : ¬ (f.countAnswers dec).Acked := by
  unfold countAnswers
  dsimp only
  split <;> split <;> (try split) <;> (try split) <;>
    first
    | exact h
    | exact not_acked_fsm_Close h
    | exact not_acked_fsm_Close (not_acked_fsm_Close h)

/-- The answer to the lists. -/
def answerTo (id : UInt8) (dec : Decode) : Call :=
  if dec.rej = [] then .output .PCC_CONFIGACK id dec.ack else .output .PCC_CONFIGREJ id dec.rej

theorem fsm_rconfreq_spec (hf : f.Answers) (id : UInt8) (dec : Decode) (hnak : dec.nak = []) :
    (f.fsm_rconfreq id dec true).replies = f.replies ++ [answerTo id dec] ∧
      (dec.rej ≠ [] → ¬ (f.fsm_rconfreq id dec true).Acked) := by
  have hdecode (g : Fsm) (hg : g.replies = f.replies) :
      (g.decodeRequest id dec true).replies = f.replies ++ [answerTo id dec] ∧
        (dec.rej ≠ [] → ¬ (g.decodeRequest id dec true).Acked) := by
    unfold decodeRequest
    rw [if_pos rfl]
    dsimp only
    generalize hq : (if (g.call .DecodeConfig).state = STM_STOPPED ∨
      (g.call .DecodeConfig).state = STM_OPENED then (g.call .DecodeConfig).fsm_sconfreq
      else g.call .DecodeConfig) = q
    have hq' : q.replies = f.replies := by
      have hcall : (g.call .DecodeConfig).replies = f.replies := by simp [replies_call, hg]
      rw [← hq]
      split
      · rw [replies_fsm_sconfreq, hcall]
      · exact hcall
    constructor
    · rw [replies_countAnswers, replies_afterRequest]
      unfold answer answerTo Decode.ackaction
      by_cases hrej : dec.rej = []
      · simp [hrej, hnak, fsm_Output, replies_call, hq']
      · simp [hrej, hnak, fsm_Output, replies_call, hq']
    · intro hrej
      have hack : Decode.ackaction dec = false := by simp [Decode.ackaction, hrej]
      rw [hack]
      exact not_acked_countAnswers (not_acked_afterRequest _) dec
  unfold fsm_rconfreq
  rcases hf with hstate | hstate | hstate | hstate | hstate
  all_goals rw [hstate]
  · exact hdecode f rfl
  · exact hdecode f rfl
  · exact hdecode f rfl
  · exact hdecode f rfl
  · exact hdecode (f.call .Down) (by simp [replies_call])

end Fsm

/-! ## The answer -/

/-- A request of well-formed options; they fit the arrays. -/
structure Request where
  options : List ConfigOption
  fits : (optionBytes options).length ≤ 100

/-- The bytes of the options that are not allowed. -/
def refusedBytes (allows : ConfigOption → Bool) (os : List ConfigOption) : List UInt8 :=
  os.flatMap fun o => if allows o then [] else o.bytes

/-- The answer that is right: all options are repeated, or those that are not allowed. -/
def rightAnswer (allows : ConfigOption → Bool) (id : UInt8) (os : List ConfigOption) : Call :=
  if ∀ o ∈ os, allows o then .output .PCC_CONFIGACK id (optionBytes os)
  else .output .PCC_CONFIGREJ id (refusedBytes allows os)

/-- The request is answered once and rightly. -/
def AnsweredRightly (handle : Nat → Nat → Handled) (allows : ConfigOption → Bool) (f : Fsm)
    (id : UInt8) (r : Request) : Prop :=
  ∃ dec, decodeOf handle r.options = some dec ∧
    (f.fsm_rconfreq id dec true).replies = f.replies ++ [rightAnswer allows id r.options] ∧
    ((∃ o ∈ r.options, allows o = false) → ¬ (f.fsm_rconfreq id dec true).Acked)

/-- How the `switch` treats options. -/
structure Treats (handle : Nat → Nat → Handled) (allows : ConfigOption → Bool)
    (repeats rejects : ConfigOption → Prop) : Prop where
  copies : CopiesWhole handle
  rejOf_allowed : ∀ o, allows o = true → rejOf handle o = []
  ackOf_allowed : ∀ o, allows o = true → (ackOf handle o = o.bytes ↔ repeats o)
  rejOf_not : ∀ o, allows o = false → (rejOf handle o = o.bytes ↔ rejects o)

theorem answered_iff {allows : ConfigOption → Bool} {repeats rejects : ConfigOption → Prop}
    (ht : Treats handle allows repeats rejects) {f : Fsm} (hf : f.Answers) (id : UInt8)
    (r : Request) : AnsweredRightly handle allows f id r ↔
      (∀ o ∈ r.options, allows o = true ∧ repeats o) ∨
        (∃ o ∈ r.options, allows o = false) ∧ ∀ o ∈ r.options, allows o = false → rejects o := by
  obtain ⟨os, -⟩ := r
  unfold AnsweredRightly
  rw [decodeOf_eq ht.copies]
  obtain ⟨hreplies, hacked⟩ := Fsm.fsm_rconfreq_spec hf id
    ⟨os.flatMap (ackOf handle), [], os.flatMap (rejOf handle)⟩ rfl
  simp only [Option.some.injEq, exists_eq_left', hreplies, append_cancel_left_eq, cons.injEq,
    and_true]
  unfold Fsm.answerTo rightAnswer
  dsimp only
  by_cases hall : ∀ o ∈ os, allows o = true
  · have hnone : os.flatMap (rejOf handle) = [] :=
      flatMap_eq_nil_iff.mpr fun o ho => ht.rejOf_allowed o (hall o ho)
    have hack : os.flatMap (ackOf handle) = optionBytes os ↔ ∀ o ∈ os, repeats o := by
      refine (flatMap_eq_iff fun o _ => ?_).trans
        (forall₂_congr fun o ho => ht.ackOf_allowed o (hall o ho))
      exact length_take_le' ..
    have hno : ¬ ∃ o ∈ os, allows o = false :=
      fun ⟨o, ho, hfalse⟩ => Bool.false_ne_true (hfalse.symm.trans (hall o ho))
    rw [if_pos hnone, if_pos hall]
    simp only [Call.output.injEq, true_and, hack, hno, false_and, or_false, false_implies, and_true]
    exact forall₂_congr fun o ho => (and_iff_right (hall o ho)).symm
  · have hbad : ∃ o ∈ os, allows o = false := by
      simpa using hall
    have hrej : os.flatMap (rejOf handle) = refusedBytes allows os ↔
        ∀ o ∈ os, allows o = false → rejects o := by
      refine (flatMap_eq_iff fun o _ => ?_).trans (forall₂_congr fun o _ => ?_)
      · split
        · rename_i ho
          rw [ht.rejOf_allowed o ho]
        · exact length_take_le' ..
      · cases ho : allows o with
        | true => simpa using ht.rejOf_allowed o ho
        | false => simpa using ht.rejOf_not o ho
    obtain ⟨o, ho, hfalse⟩ := hbad
    have hnot : ¬ ∀ o ∈ os, allows o = true ∧ repeats o := fun h => hall fun o ho => (h o ho).1
    have hsome : refusedBytes allows os ≠ [] := by
      refine fun hnil => absurd (flatMap_eq_nil_iff.mp hnil o ho) ?_
      rw [if_neg (by rw [hfalse]; exact Bool.false_ne_true)]
      exact cons_ne_nil _ _
    rw [if_neg hall, ← hrej]
    by_cases hnil : os.flatMap (rejOf handle) = []
    · simp [hnil, hnot, hsome.symm]
    · simp only [hnil, if_false, Call.output.injEq, true_and, hnot, false_or]
      exact ⟨fun h => ⟨⟨o, ho, hfalse⟩, h.1⟩, fun h => ⟨h.2, fun _ => hacked hnil⟩⟩

theorem ConfigOption.bytes_ne_nil (o : ConfigOption) : o.bytes ≠ [] := cons_ne_nil _ _

theorem ConfigOption.bytes_length (o : ConfigOption) : o.bytes.length = o.data.length + 2 := rfl

theorem lcp_options.handle_ack (ao : lcp_options) (id len : Nat) :
    (ao.handle id len).ack = if id = LCPO_MAGICNUM ∧ ao.want_magic then len else 0 := by
  unfold lcp_options.handle
  split <;> (try split) <;> simp_all

theorem lcp_options.handle_rej (ao : lcp_options) (id len : Nat) :
    (ao.handle id len).rej =
      if id = LCPO_PROTOCOMP ∧ ¬ ao.protocomp ∨ id = LCPO_ACFCOMP ∧ ¬ ao.acfcomp then 2 else 0 := by
  unfold lcp_options.handle
  split <;> (try split) <;> simp_all

theorem lcp_treats (ao : lcp_options) : Treats ao.handle ao.allows ao.repeats ao.rejects := by
  refine ⟨fun id len hlen => ?_, fun o ho => ?_, fun o ho => ?_, fun o ho => ?_⟩
  · rw [ao.handle_ack, ao.handle_rej]
    constructor <;> split <;> omega
  all_goals unfold lcp_options.allows at ho
  · rw [rejOf, ao.handle_rej]
    split at ho <;> simp_all
  · rw [ackOf, ao.handle_ack, lcp_options.repeats]
    split at ho <;> simp_all [ConfigOption.len, o.bytes_length, o.bytes_ne_nil]
  · rw [rejOf, ao.handle_rej, lcp_options.rejects]
    split at ho <;> simp_all [o.bytes_length, o.bytes_ne_nil]

theorem ipcp_treats (ao : ipcp_options) : Treats ao.handle ao.allows ao.repeats ao.rejects := by
  refine ⟨fun type len hlen => ?_, fun o ho => ?_, fun o ho => ?_, fun o ho => ?_⟩
  · unfold ipcp_options.handle
    split <;> (try split) <;> constructor <;> dsimp only <;> omega
  all_goals unfold ipcp_options.allows at ho
  · unfold rejOf ipcp_options.handle
    split at ho <;> simp_all
  · unfold ackOf ipcp_options.handle ipcp_options.repeats
    split at ho <;> simp_all [ConfigOption.len, o.bytes_length]
  · unfold rejOf ipcp_options.handle ipcp_options.rejects
    split at ho <;> simp_all [ConfigOption.len, o.bytes_length, o.bytes_ne_nil]

/-- An option without data. -/
def ConfigOption.plain (type : UInt8) : ConfigOption := ⟨type, [], Nat.zero_le _⟩

/-- A request of one option without data. -/
def Request.plain (type : UInt8) : Request := ⟨[.plain type], Nat.le_of_ble_eq_true rfl⟩

/-- The options of LCP that are allowed at first. -/
def magicOnly : lcp_options := ⟨true, false, false, false⟩

/-- The automaton waits for an answer. -/
def reqSent : Fsm := { fsm_Init 0 with state := STM_REQSENT }

end Ppp

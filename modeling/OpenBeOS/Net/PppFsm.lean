import OpenBeOS.Lib.Reachable

/-! # The automaton of PPP

The automaton `fsm.c` of one layer of PPP. The callbacks of the module are present and succeed; they
and the packets sent are kept in the order in which they come. All counters are taken to be in range.
-/

namespace Ppp

open Reachable List

/-! ## The automaton -/

inductive FsmState where
  | STM_INITIAL
  | STM_STARTING
  | STM_CLOSED
  | STM_STOPPED
  | STM_CLOSING
  | STM_STOPPING
  | STM_REQSENT
  | STM_ACKRCVD
  | STM_ACKSENT
  | STM_OPENED
  deriving DecidableEq

open FsmState

def FsmState.value : FsmState → Nat
  | STM_INITIAL => 0
  | STM_STARTING => 1
  | STM_CLOSED => 2
  | STM_STOPPED => 3
  | STM_CLOSING => 4
  | STM_STOPPING => 5
  | STM_REQSENT => 6
  | STM_ACKRCVD => 7
  | STM_ACKSENT => 8
  | STM_OPENED => 9

inductive PacketCode where
  | PCC_CONFIGACK
  | PCC_CONFIGNAK
  | PCC_CONFIGREJ
  deriving DecidableEq

/-- What the automaton calls: the module, the automata of the layer above, and `fsm_Output`. -/
inductive Call where
  | Start
  | Finish
  | Up
  | Down
  | SendConfigReq
  | SendTerminateAck (id : UInt8)
  | DecodeConfig
  | parent_start
  | parent_up
  | output (code : PacketCode) (id : UInt8) (data : List UInt8)
  deriving DecidableEq

def DEF_FSMTRIES : Int := 5
def OPEN_PASSIVE : Int := -1

/-- `abandoned` says that `fsm_sconfreq` has closed the layer in the last event. -/
structure Fsm where
  state : FsmState
  open_mode : Int
  restart : Int
  reqs : Int
  naks : Int
  rejs : Int
  calls : List Call
  abandoned : Bool

/-- What `DecodeConfig` finds in a request. -/
structure Decode where
  ack : List UInt8
  nak : List UInt8
  rej : List UInt8

namespace Fsm

section

variable (f : Fsm)

def call (c : Call) : Fsm := { f with calls := f.calls ++ [c] }

def fsm_newstate (newst : FsmState) : Fsm := { f with state := newst }

def fsm_Close : Fsm :=
  match f.state with
  | STM_STARTING => (f.call .Finish).fsm_newstate STM_INITIAL
  | STM_STOPPED => f.fsm_newstate STM_CLOSED
  | STM_STOPPING => f.fsm_newstate STM_CLOSING
  | STM_OPENED => (f.call .Down).fsm_newstate STM_CLOSING
  | STM_REQSENT | STM_ACKRCVD | STM_ACKSENT => f.fsm_newstate STM_CLOSING
  | _ => f

/-- Both counters have to be positive, and `restart` is looked at only if `reqs` is. -/
def fsm_sconfreq : Fsm :=
  if f.reqs > 0 then
    if f.restart > 0 then
      { f with reqs := f.reqs - 1, restart := f.restart - 1 }.call .SendConfigReq
    else
      { { f with reqs := f.reqs - 1, restart := f.restart - 1 }.fsm_Close with abandoned := true }
  else { { f with reqs := f.reqs - 1 }.fsm_Close with abandoned := true }

def fsm_Up : Fsm :=
  match f.state with
  | STM_INITIAL => f.fsm_newstate STM_CLOSED
  | STM_STARTING => f.fsm_sconfreq.fsm_newstate STM_REQSENT
  | _ => f

def fsm_opennow : Fsm :=
  if f.state.value ≤ STM_STOPPED.value then
    (if f.state ≠ STM_STARTING then (f.call .Start).call .parent_start else f
      ).fsm_sconfreq.fsm_newstate STM_REQSENT
  else f

def fsm_Open : Fsm :=
  match f.state with
  | STM_INITIAL => ((f.fsm_newstate STM_STARTING).call .Start).call .parent_start
  | STM_CLOSED =>
    if f.open_mode = OPEN_PASSIVE then f.fsm_newstate STM_STOPPED
    else if f.open_mode > 0 then f.fsm_newstate STM_STOPPED
    else f.fsm_opennow
  | STM_CLOSING | STM_STOPPING => f.fsm_newstate STM_STOPPING
  | _ => f

def fsm_Down : Fsm :=
  match f.state with
  | STM_CLOSED => f.fsm_newstate STM_INITIAL
  | STM_CLOSING => (f.call .Finish).fsm_newstate STM_INITIAL
  | STM_STOPPED => ((f.fsm_newstate STM_STARTING).call .Start).call .parent_start
  | STM_STOPPING | STM_REQSENT | STM_ACKRCVD | STM_ACKSENT => f.fsm_newstate STM_STARTING
  | STM_OPENED => (f.call .Down).fsm_newstate STM_STARTING
  | _ => f

def fsm_Output (code : PacketCode) (id : UInt8) (data : List UInt8) : Fsm :=
  f.call (.output code id data)

/-- The packets that answer a request. -/
def answer (id : UInt8) (dec : Decode) (ackaction : Bool) : Fsm :=
  let f := if dec.rej ≠ [] then f.fsm_Output .PCC_CONFIGREJ id dec.rej else f
  let f := if dec.nak ≠ [] then f.fsm_Output .PCC_CONFIGNAK id dec.nak else f
  if ackaction then f.fsm_Output .PCC_CONFIGACK id dec.ack else f

/-- The state behind a request; `Up` succeeds. -/
def afterRequest (ackaction : Bool) : Fsm :=
  match f.state with
  | STM_STOPPED =>
    ((f.call .Start).call .parent_start).fsm_newstate
      (if ackaction then STM_ACKSENT else STM_REQSENT)
  | STM_OPENED => f.fsm_newstate (if ackaction then STM_ACKSENT else STM_REQSENT)
  | STM_REQSENT => if ackaction then f.fsm_newstate STM_ACKSENT else f
  | STM_ACKRCVD =>
    if ackaction then ((f.fsm_newstate STM_OPENED).call .Up).call .parent_up else f
  | STM_ACKSENT => if ackaction then f else f.fsm_newstate STM_REQSENT
  | _ => f

/-- The counters of the answers; too many of one kind close the layer. -/
def countAnswers (dec : Decode) : Fsm :=
  let f :=
    if dec.rej ≠ [] then
      if f.rejs - 1 ≤ 0 then { f with rejs := f.rejs - 1 }.fsm_Close
      else { f with rejs := f.rejs - 1 }
    else f
  if dec.nak ≠ [] then
    if f.naks - 1 ≤ 0 then { f with naks := f.naks - 1 }.fsm_Close
    else { f with naks := f.naks - 1 }
  else f

end

/-- Whether the request may be agreed to. -/
def Decode.ackaction (dec : Decode) : Bool := dec.nak = [] ∧ dec.rej = []

/-- A request that is looked at; `pulled` says whether `m_pullup` has made it contiguous. -/
def decodeRequest (f : Fsm) (id : UInt8) (dec : Decode) (pulled : Bool) : Fsm :=
  if pulled then
    let f := f.call .DecodeConfig
    let f := if f.state = STM_STOPPED ∨ f.state = STM_OPENED then f.fsm_sconfreq else f
    ((f.answer id dec (Decode.ackaction dec)).afterRequest (Decode.ackaction dec)).countAnswers dec
  else f

def fsm_rconfreq (f : Fsm) (id : UInt8) (dec : Decode) (pulled : Bool) : Fsm :=
  match f.state with
  | STM_INITIAL | STM_STARTING => f
  | STM_CLOSED => f.call (.SendTerminateAck id)
  | STM_CLOSING | STM_STOPPING => f
  | STM_OPENED => (f.call .Down).decodeRequest id dec pulled
  | _ => f.decodeRequest id dec pulled

def fsm_rconfack (f : Fsm) (id : UInt8) : Fsm :=
  match f.state with
  | STM_CLOSED | STM_STOPPED => f.call (.SendTerminateAck id)
  | STM_REQSENT => f.fsm_newstate STM_ACKRCVD
  | STM_ACKRCVD => f.fsm_sconfreq.fsm_newstate STM_REQSENT
  | STM_ACKSENT => ((f.fsm_newstate STM_OPENED).call .Up).call .parent_up
  | STM_OPENED => (f.call .Down).fsm_newstate STM_REQSENT
  | _ => f

/-- `fsm_Init` leaves the other fields alone. -/
def fsm_Init (open_mode : Int) : Fsm where
  state := STM_INITIAL
  open_mode := open_mode
  restart := 1
  reqs := DEF_FSMTRIES
  naks := DEF_FSMTRIES
  rejs := DEF_FSMTRIES
  calls := []
  abandoned := false

end Fsm

inductive FsmEvent where
  | fsm_Up
  | fsm_Open
  | fsm_Down
  | fsm_Close
  | fsm_rconfreq (id : UInt8) (dec : Decode) (pulled : Bool)
  | fsm_rconfack (id : UInt8)

namespace Fsm

def event (f : Fsm) : FsmEvent → Fsm
  | .fsm_Up => { f with abandoned := false }.fsm_Up
  | .fsm_Open => { f with abandoned := false }.fsm_Open
  | .fsm_Down => { f with abandoned := false }.fsm_Down
  | .fsm_Close => { f with abandoned := false }.fsm_Close
  | .fsm_rconfreq id dec pulled => { f with abandoned := false }.fsm_rconfreq id dec pulled
  | .fsm_rconfack id => { f with abandoned := false }.fsm_rconfack id

def Step (f : Fsm) (e : FsmEvent) (f' : Fsm) : Prop := f' = f.event e

variable {f f' : Fsm} {b : Bool}

/-! ## `Up` and `Down` -/

/-- The calls of `Up` and `Down`. -/
def layers (f : Fsm) : List Call := f.calls.filter fun c => c = .Up ∨ c = .Down

/-- `Up` and `Down` in turn. -/
def alternating (n : Nat) : List Call :=
  (List.range n).map fun i => if i % 2 = 0 then .Up else .Down

theorem alternating_succ (n : Nat) :
    alternating (n + 1) = alternating n ++ [if n % 2 = 0 then .Up else .Down] := by
  unfold alternating
  rw [range_succ, map_append, map_singleton]

/-- The calls alternate, and `b` says whether the last one was `Up`. -/
def Outstanding (f : Fsm) (b : Bool) : Prop :=
  ∃ n, f.layers = alternating n ∧ (n % 2 = 1 ↔ b = true)

theorem layers_call (f : Fsm) (c : Call) :
    (f.call c).layers = f.layers ++ if c = .Up ∨ c = .Down then [c] else [] := by
  unfold layers call
  rw [filter_append]
  by_cases hc : c = .Up ∨ c = .Down
  · rw [if_pos hc, filter_cons_of_pos (by simpa using hc), filter_nil]
  · rw [if_neg hc, filter_cons_of_neg (by simpa using hc), filter_nil]

theorem Outstanding.call (h : f.Outstanding b) {c : Call} (hc : ¬ (c = .Up ∨ c = .Down)) :
    (f.call c).Outstanding b := by
  obtain ⟨n, hn, hup⟩ := h
  refine ⟨n, ?_, hup⟩
  rw [layers_call, if_neg hc, append_nil, hn]

theorem Outstanding.up (h : f.Outstanding false) : (f.call .Up).Outstanding true := by
  obtain ⟨n, hn, hup⟩ := h
  have heven : n % 2 = 0 := by
    have hodd : n % 2 ≠ 1 := fun hodd => Bool.false_ne_true (hup.mp hodd)
    omega
  refine ⟨n + 1, ?_, ?_⟩
  · rw [layers_call, if_pos (Or.inl rfl), hn, alternating_succ, if_pos heven]
  · simp only [iff_true]
    omega

theorem Outstanding.down (h : f.Outstanding true) : (f.call .Down).Outstanding false := by
  obtain ⟨n, hn, hup⟩ := h
  have hodd : n % 2 = 1 := hup.mpr rfl
  refine ⟨n + 1, ?_, ?_⟩
  · rw [layers_call, if_pos (Or.inr rfl), hn, alternating_succ, if_neg (by omega)]
  · simp only [Bool.false_eq_true, iff_false]
    omega

/-! ## The invariant -/

/-- Where an event may end that has used up the requests. -/
def Idle (state : FsmState) : Prop :=
  state = STM_INITIAL ∨ state = STM_CLOSED ∨ state = STM_CLOSING ∨ state = STM_STOPPED ∨
    state = STM_STOPPING

/-- An `Up` is outstanding in the state Opened only. -/
structure Sound (f : Fsm) : Prop where
  outstanding : f.Outstanding (f.state = STM_OPENED)
  abandoned : f.abandoned = true → Idle f.state

theorem sound_of_down (h : f.Outstanding false) (hstate : f.state ≠ STM_OPENED)
    (habandoned : f.abandoned = true → Idle f.state) : f.Sound := by
  refine ⟨?_, habandoned⟩
  rwa [decide_eq_false hstate]

theorem Sound.down (h : f.Sound) (hstate : f.state ≠ STM_OPENED) : f.Outstanding false := by
  have houtstanding := h.outstanding
  rwa [decide_eq_false hstate] at houtstanding

theorem Sound.up (h : f.Sound) (hstate : f.state = STM_OPENED) : f.Outstanding true := by
  have houtstanding := h.outstanding
  rwa [decide_eq_true hstate] at houtstanding

theorem Sound.fsm_Close (h : f.Sound) : f.fsm_Close.Sound := by
  unfold Fsm.fsm_Close
  split
  · rename_i hstate
    refine sound_of_down ((h.down (by rw [hstate]; nofun)).call (by simp)) nofun fun _ => Or.inl rfl
  · rename_i hstate
    exact sound_of_down (h.down (by rw [hstate]; nofun)) nofun fun _ => Or.inr (Or.inl rfl)
  · rename_i hstate
    exact sound_of_down (h.down (by rw [hstate]; nofun)) nofun
      fun _ => Or.inr (Or.inr (Or.inl rfl))
  · rename_i hstate
    exact sound_of_down (h.up hstate).down nofun fun _ => Or.inr (Or.inr (Or.inl rfl))
  all_goals first
    | exact h
    | rename_i hstate
      exact sound_of_down (h.down (by rw [hstate]; nofun)) nofun
        fun _ => Or.inr (Or.inr (Or.inl rfl))

/-- The layer may send another request. -/
def HasRequests (f : Fsm) : Prop := 0 < f.reqs ∧ 0 < f.restart

theorem fsm_sconfreq_of_requests (h : f.HasRequests) : f.fsm_sconfreq =
      { f with reqs := f.reqs - 1, restart := f.restart - 1 }.call .SendConfigReq := by
  unfold fsm_sconfreq
  rw [if_pos h.1, if_pos h.2]

theorem sound_sconfreq (h : f.HasRequests) (houtstanding : f.Outstanding false)
    (habandoned : f.abandoned = false) {newst : FsmState} (hnewst : newst ≠ STM_OPENED) :
    (f.fsm_sconfreq.fsm_newstate newst).Sound := by
  rw [fsm_sconfreq_of_requests h]
  have hcalls : ({ f with reqs := f.reqs - 1, restart := f.restart - 1 } : Fsm).Outstanding false :=
    houtstanding
  refine sound_of_down (hcalls.call (by simp)) hnewst fun hgone => ?_
  exact absurd (habandoned.symm.trans hgone) Bool.false_ne_true

/-- The layer is given up where it is stopped. -/
theorem sconfreq_stopped (hstate : f.state = STM_STOPPED) :
    (f.fsm_sconfreq.state = STM_STOPPED ∧ f.fsm_sconfreq.abandoned = f.abandoned ∨
        f.fsm_sconfreq.state = STM_CLOSED) ∧
      (f.Outstanding b → f.fsm_sconfreq.Outstanding b) := by
  have hclose : ∀ reqs restart : Int, ({ { f with reqs, restart }.fsm_Close with
      abandoned := true } : Fsm).state = STM_CLOSED ∧
      (f.Outstanding b → ({ { f with reqs, restart }.fsm_Close with
        abandoned := true } : Fsm).Outstanding b) := by
    intro reqs restart
    unfold Fsm.fsm_Close
    dsimp only
    rw [hstate]
    exact ⟨rfl, id⟩
  unfold fsm_sconfreq
  split
  · split
    · refine ⟨Or.inl ⟨hstate, rfl⟩, fun houtstanding => ?_⟩
      have hcalls : ({ f with reqs := f.reqs - 1, restart := f.restart - 1 } : Fsm).Outstanding
        b := houtstanding
      exact hcalls.call (by simp)
    · exact ⟨Or.inr (hclose _ _).1, (hclose _ _).2⟩
  · exact ⟨Or.inr (hclose _ _).1, (hclose _ f.restart).2⟩

/-! ## A request is received -/

/-- The answers change nothing but what is sent. -/
theorem answer_same (f : Fsm) (id : UInt8) (dec : Decode) (ackaction : Bool) :
    (f.answer id dec ackaction).state = f.state ∧
      (f.answer id dec ackaction).abandoned = f.abandoned ∧
      (f.Outstanding b → (f.answer id dec ackaction).Outstanding b) := by
  have houtput : ∀ (c : Prop) [Decidable c] (f : Fsm) (code : PacketCode) (data : List UInt8),
      (if c then f.fsm_Output code id data else f).state = f.state ∧
        (if c then f.fsm_Output code id data else f).abandoned = f.abandoned ∧
        (f.Outstanding b → (if c then f.fsm_Output code id data else f).Outstanding b) := by
    intro c _ f code data
    split
    · exact ⟨rfl, rfl, fun h => h.call (by simp)⟩
    · exact ⟨rfl, rfl, fun h => h⟩
  unfold answer
  dsimp only
  obtain ⟨hstate₁, habandoned₁, hcalls₁⟩ := houtput (dec.rej ≠ []) f .PCC_CONFIGREJ dec.rej
  generalize (if dec.rej ≠ [] then f.fsm_Output .PCC_CONFIGREJ id dec.rej else f) = f₁ at *
  obtain ⟨hstate₂, habandoned₂, hcalls₂⟩ := houtput (dec.nak ≠ []) f₁ .PCC_CONFIGNAK dec.nak
  generalize (if dec.nak ≠ [] then f₁.fsm_Output .PCC_CONFIGNAK id dec.nak else f₁) = f₂ at *
  obtain ⟨hstate₃, habandoned₃, hcalls₃⟩ := houtput (ackaction = true) f₂ .PCC_CONFIGACK dec.ack
  exact ⟨hstate₃.trans (hstate₂.trans hstate₁), habandoned₃.trans (habandoned₂.trans habandoned₁),
    fun h => hcalls₃ (hcalls₂ (hcalls₁ h))⟩

/-- The layer is not up, whatever its state says, and it may be given up if it is closed. -/
theorem sound_afterRequest (ackaction : Bool) (h : f.Outstanding false)
    (habandoned : f.abandoned = true → f.state = STM_CLOSED) :
    (f.afterRequest ackaction).Sound := by
  have hgone : ∀ {state : FsmState}, f.state = state → state ≠ STM_CLOSED →
      f.abandoned = true → Idle state := fun hstate hne hgone =>
    absurd (hstate.symm.trans (habandoned hgone)) hne
  -- a state in which the layer is not up
  have hdown : ∀ {state newst : FsmState}, f.state = state → state ≠ STM_CLOSED →
      newst ≠ STM_OPENED → (f.fsm_newstate newst).Sound := by
    intro state newst hstate hne hnewst
    refine sound_of_down h hnewst fun hgone => ?_
    exact absurd (hstate.symm.trans (habandoned hgone)) hne
  have hite : (if ackaction = true then STM_ACKSENT else STM_REQSENT) ≠ STM_OPENED := by
    split <;> nofun
  unfold afterRequest
  split
  · rename_i hstate
    refine sound_of_down ((h.call (by simp)).call (by simp)) hite fun hgone => ?_
    cases hstate.symm.trans (habandoned hgone)
  · rename_i hstate
    exact hdown hstate nofun hite
  · rename_i hstate
    split
    · exact hdown hstate nofun nofun
    · exact sound_of_down h (by rw [hstate]; nofun) fun hgone =>
        absurd (hstate.symm.trans (habandoned hgone)) nofun
  · rename_i hstate
    split
    · refine ⟨?_, fun hgone => absurd (hstate.symm.trans (habandoned hgone)) nofun⟩
      have hup : (f.fsm_newstate STM_OPENED).Outstanding false := h
      exact hup.up.call (by simp)
    · exact sound_of_down h (by rw [hstate]; nofun) fun hgone =>
        absurd (hstate.symm.trans (habandoned hgone)) nofun
  · rename_i hstate
    split
    · exact sound_of_down h (by rw [hstate]; nofun) fun hgone =>
        absurd (hstate.symm.trans (habandoned hgone)) nofun
    · exact hdown hstate nofun nofun
  · rename_i hopened _ _ _
    exact sound_of_down h hopened fun hgone => Or.inr (Or.inl (habandoned hgone))

theorem Sound.countAnswers (h : f.Sound) (dec : Decode) : (f.countAnswers dec).Sound := by
  have hcount : ∀ {f : Fsm} (rejs naks : Int) (c : Prop) [Decidable c], f.Sound →
      (if c then { f with rejs, naks }.fsm_Close else { f with rejs, naks }).Sound := by
    intro f rejs naks c _ hf
    have hsame : ({ f with rejs, naks } : Fsm).Sound := ⟨hf.outstanding, hf.abandoned⟩
    split
    · exact hsame.fsm_Close
    · exact hsame
  unfold Fsm.countAnswers
  have hrej : (if dec.rej ≠ [] then
      if f.rejs - 1 ≤ 0 then { f with rejs := f.rejs - 1 }.fsm_Close
      else { f with rejs := f.rejs - 1 }
    else f).Sound := by
    split
    · exact hcount _ f.naks _ h
    · exact h
  generalize (if dec.rej ≠ [] then
      if f.rejs - 1 ≤ 0 then { f with rejs := f.rejs - 1 }.fsm_Close
      else { f with rejs := f.rejs - 1 }
    else f) = f₁ at hrej
  dsimp only
  split
  · exact hcount f₁.rejs _ _ hrej
  · exact hrej

/-- The layer is not up, and a request is left to send where it was up. -/
theorem sound_decodeRequest (h : f.Outstanding false) (habandoned : f.abandoned = false)
    (hopened : f.state = STM_OPENED → f.HasRequests) (id : UInt8) (dec : Decode) :
    (f.decodeRequest id dec true).Sound := by
  have hdecode : (f.call .DecodeConfig).Outstanding false := h.call (by simp)
  unfold decodeRequest
  rw [if_pos rfl]
  dsimp only
  refine Sound.countAnswers ?_ dec
  obtain ⟨f₁, hf₁, hcalls, hgone⟩ : ∃ f₁, (if (f.call .DecodeConfig).state = STM_STOPPED ∨
      (f.call .DecodeConfig).state = STM_OPENED then (f.call .DecodeConfig).fsm_sconfreq
      else f.call .DecodeConfig) = f₁ ∧ f₁.Outstanding false ∧
      (f₁.abandoned = true → f₁.state = STM_CLOSED) := by
    refine ⟨_, rfl, ?_⟩
    by_cases hstopped : (f.call .DecodeConfig).state = STM_STOPPED
    · rw [if_pos (Or.inl hstopped)]
      obtain ⟨hcases, hcalls⟩ := sconfreq_stopped hstopped
      refine ⟨hcalls hdecode, fun hgone => hcases.resolve_left fun hsame => ?_⟩
      exact absurd (habandoned.symm.trans (hsame.2.symm.trans hgone)) Bool.false_ne_true
    · by_cases hup : (f.call .DecodeConfig).state = STM_OPENED
      · rw [if_pos (Or.inr hup)]
        have hrequests : (f.call .DecodeConfig).HasRequests := hopened hup
        rw [fsm_sconfreq_of_requests hrequests]
        have hcalls : ({ f.call .DecodeConfig with
            reqs := f.reqs - 1, restart := f.restart - 1 } : Fsm).Outstanding false := hdecode
        exact ⟨hcalls.call (by simp), fun hgone =>
          absurd (habandoned.symm.trans hgone) Bool.false_ne_true⟩
      · rw [if_neg (not_or.mpr ⟨hstopped, hup⟩)]
        exact ⟨hdecode, fun hgone => absurd (habandoned.symm.trans hgone) Bool.false_ne_true⟩
  rw [hf₁]
  obtain ⟨hstate₂, habandoned₂, hcalls₂⟩ := answer_same f₁ id dec (Decode.ackaction dec)
  refine sound_afterRequest _ (hcalls₂ hcalls) fun hgone₂ => ?_
  rw [hstate₂]
  exact hgone (habandoned₂ ▸ hgone₂)

/-! ## Runs -/

/-- No request is asked for when they are used up, and a layer that is up can look at what it gets. -/
def Keeps (f : Fsm) : FsmEvent → Prop
  | .fsm_Up => f.state = STM_STARTING → f.HasRequests
  | .fsm_Open => f.state = STM_CLOSED → f.HasRequests
  | .fsm_rconfreq _ _ pulled => f.state = STM_OPENED → pulled = true ∧ f.HasRequests
  | .fsm_rconfack _ => f.state = STM_ACKRCVD → f.HasRequests
  | .fsm_Down | .fsm_Close => True

/-- The automaton behind `fsm_Init`, with `open_mode` zero. -/
def Init (f : Fsm) : Prop := f = fsm_Init 0

section

variable (h : f.Sound) (habandoned : f.abandoned = false)
include h habandoned

theorem sound_fsm_Up
    (hkeeps : f.state = STM_STARTING → f.HasRequests) : f.fsm_Up.Sound := by
  unfold fsm_Up
  split
  · rename_i hstate
    exact sound_of_down (h.down (by rw [hstate]; nofun)) nofun fun _ => Or.inr (Or.inl rfl)
  · rename_i hstate
    exact sound_sconfreq (hkeeps hstate) (h.down (by rw [hstate]; nofun)) habandoned nofun
  · exact h

theorem sound_fsm_Open
    (hkeeps : f.state = STM_CLOSED → f.HasRequests) : f.fsm_Open.Sound := by
  unfold fsm_Open
  split
  · rename_i hstate
    have hdown : (f.fsm_newstate STM_STARTING).Outstanding false := h.down (by rw [hstate]; nofun)
    refine sound_of_down ((hdown.call (by simp)).call (by simp)) nofun fun hgone => ?_
    exact absurd (habandoned.symm.trans hgone) Bool.false_ne_true
  · rename_i hstate
    have hdown : f.Outstanding false := h.down (by rw [hstate]; nofun)
    have hstopped : (f.fsm_newstate STM_STOPPED).Sound :=
      sound_of_down hdown nofun fun _ => Or.inr (Or.inr (Or.inr (Or.inl rfl)))
    split
    · exact hstopped
    · split
      · exact hstopped
      · unfold fsm_opennow
        rw [if_pos (by rw [hstate]; decide), if_pos (by rw [hstate]; nofun)]
        have hcalls : ((f.call .Start).call .parent_start).Outstanding false :=
          (hdown.call (by simp)).call (by simp)
        have hrequests : ((f.call .Start).call .parent_start).HasRequests := hkeeps hstate
        exact sound_sconfreq hrequests hcalls habandoned nofun
  all_goals first
    | exact h
    | rename_i hstate
      exact sound_of_down (h.down (by rw [hstate]; nofun)) nofun
        fun _ => Or.inr (Or.inr (Or.inr (Or.inr rfl)))

theorem sound_fsm_Down : f.fsm_Down.Sound := by
  have hgone : ∀ {state : FsmState}, f.abandoned = true → Idle state := fun hgone =>
    absurd (habandoned.symm.trans hgone) Bool.false_ne_true
  unfold fsm_Down
  split
  · rename_i hstate
    exact sound_of_down (h.down (by rw [hstate]; nofun)) nofun hgone
  · rename_i hstate
    exact sound_of_down ((h.down (by rw [hstate]; nofun)).call (by simp)) nofun hgone
  · rename_i hstate
    have hdown : (f.fsm_newstate STM_STARTING).Outstanding false := h.down (by rw [hstate]; nofun)
    exact sound_of_down ((hdown.call (by simp)).call (by simp)) nofun hgone
  all_goals first
    | exact h
    | rename_i hstate
      exact sound_of_down (h.down (by rw [hstate]; nofun)) nofun hgone
    | rename_i hstate
      exact sound_of_down (h.up hstate).down nofun hgone

theorem sound_fsm_rconfreq (id : UInt8)
    (dec : Decode) (pulled : Bool)
    (hkeeps : f.state = STM_OPENED → pulled = true ∧ f.HasRequests) :
    (f.fsm_rconfreq id dec pulled).Sound := by
  unfold fsm_rconfreq
  split
  · exact h
  · exact h
  · rename_i hstate
    have hdown : f.Outstanding false := h.down (by rw [hstate]; nofun)
    refine sound_of_down (hdown.call (by simp)) (by rw [call, hstate]; nofun) fun _ => ?_
    exact Or.inr (Or.inl hstate)
  · exact h
  · exact h
  · rename_i hstate
    obtain ⟨hpulled, hrequests⟩ := hkeeps hstate
    rw [hpulled]
    have hleft : (f.call .Down).HasRequests := hrequests
    exact sound_decodeRequest (h.up hstate).down habandoned (fun _ => hleft) id dec
  · rename_i hopened
    cases pulled with
    | true =>
      exact sound_decodeRequest (h.down hopened) habandoned
        (fun hstate => absurd hstate hopened) id dec
    | false =>
      unfold decodeRequest
      rw [if_neg Bool.false_ne_true]
      exact h

theorem sound_fsm_rconfack (id : UInt8)
    (hkeeps : f.state = STM_ACKRCVD → f.HasRequests) : (f.fsm_rconfack id).Sound := by
  have hgone : ∀ {state : FsmState}, f.abandoned = true → Idle state := fun hgone =>
    absurd (habandoned.symm.trans hgone) Bool.false_ne_true
  have hterminate : f.state ≠ STM_OPENED → (f.call (.SendTerminateAck id)).Sound := fun hopened =>
    sound_of_down ((h.down hopened).call (by simp)) hopened hgone
  unfold fsm_rconfack
  split
  · rename_i hstate
    exact hterminate (by rw [hstate]; nofun)
  · rename_i hstate
    exact hterminate (by rw [hstate]; nofun)
  · rename_i hstate
    exact sound_of_down (h.down (by rw [hstate]; nofun)) nofun hgone
  · rename_i hstate
    exact sound_sconfreq (hkeeps hstate) (h.down (by rw [hstate]; nofun)) habandoned nofun
  · rename_i hstate
    have hdown : (f.fsm_newstate STM_OPENED).Outstanding false := h.down (by rw [hstate]; nofun)
    exact ⟨hdown.up.call (by simp), hgone⟩
  · rename_i hstate
    exact sound_of_down (h.up hstate).down nofun hgone
  · exact h

end

theorem Sound.event {e : FsmEvent} (h : f.Sound) (hkeeps : f.Keeps e) : (f.event e).Sound := by
  have hreset : ({ f with abandoned := false } : Fsm).Sound := ⟨h.outstanding, nofun⟩
  cases e with
  | fsm_Up => exact sound_fsm_Up hreset rfl hkeeps
  | fsm_Open => exact sound_fsm_Open hreset rfl hkeeps
  | fsm_Down => exact sound_fsm_Down hreset rfl
  | fsm_Close => exact hreset.fsm_Close
  | fsm_rconfreq id dec pulled => exact sound_fsm_rconfreq hreset rfl id dec pulled hkeeps
  | fsm_rconfack id => exact sound_fsm_rconfack hreset rfl id hkeeps

theorem sound_fsm_Init (open_mode : Int) : (fsm_Init open_mode).Sound :=
  sound_of_down ⟨0, rfl, by simp⟩ nofun nofun

/-- The calls of `Up` and `Down` alternate, the layer is up in the state Opened only, and a layer that
is given up does not stay in a state in which it negotiates. -/
structure Disciplined (f : Fsm) : Prop where
  alternate : ∀ i, (h : i < f.layers.length) → f.layers[i] = if i % 2 = 0 then .Up else .Down
  outstanding : f.layers.length % 2 = 1 ↔ f.state = STM_OPENED
  abandoned : f.abandoned = true → Idle f.state

theorem Sound.disciplined (h : f.Sound) : f.Disciplined := by
  obtain ⟨n, hlayers, hup⟩ := h.outstanding
  have hlength : f.layers.length = n := by
    rw [hlayers, alternating, length_map, length_range]
  refine ⟨fun i hi => ?_, ?_, h.abandoned⟩
  · simp only [hlayers, alternating, getElem_map, getElem_range]
  · rw [hlength, hup, decide_eq_true_iff]

theorem fsm_disciplined (h : By Init Keeps Step f) : f.Disciplined := by
  refine Sound.disciplined (h.invariant Sound ?_ ?_)
  · intro f hinit
    rw [hinit]
    exact sound_fsm_Init 0
  · intro f e f' hsound hkeeps hstep
    rw [hstep]
    exact hsound.event hkeeps

/-- The layer comes up and goes down again. -/
theorem fsm_disciplined_opened :
    ∃ f, By Init Keeps Step f ∧ f.layers = [.Up, .Down] ∧ f.Disciplined := by
  let request : FsmEvent := .fsm_rconfreq 0 ⟨[], [], []⟩ true
  have h : By Init Keeps Step
      ((((((fsm_Init 0).event .fsm_Open).event .fsm_Up).event request).event
        (.fsm_rconfack 0)).event .fsm_Down) := by
    refine .step (.step (.step (.step (.step (.init rfl) ?_ rfl) ?_ rfl) ?_ rfl) ?_ rfl) ?_ rfl
    · intro hstate
      exact absurd hstate (by decide)
    · intro _
      exact ⟨by decide, by decide⟩
    · intro hstate
      exact absurd hstate (by decide)
    · intro hstate
      exact absurd hstate (by decide)
    · trivial
  exact ⟨_, h, by decide, fsm_disciplined h⟩

/-- A second Configure-Ack uses up the requests: the layer is closed, and asks again. -/
theorem fsm_keeps_asking :
    ∃ f, By Init (fun _ _ => True) Step f ∧ f.abandoned = true ∧ f.state = STM_REQSENT ∧
      ¬ f.Disciplined := by
  let f := ((((fsm_Init 0).event .fsm_Up).event .fsm_Open).event (.fsm_rconfack 0)).event
    (.fsm_rconfack 0)
  have h : By Init (fun _ _ => True) Step f := by
    exact .step (.step (.step (.step (.init rfl) trivial rfl) trivial rfl) trivial rfl) trivial rfl
  have hstate : f.state = STM_REQSENT := by decide
  refine ⟨f, h, by decide, hstate, fun hdisciplined => ?_⟩
  have hidle : Idle f.state := hdisciplined.abandoned (by decide)
  rw [hstate] at hidle
  rcases hidle with h | h | h | h | h <;> cases h

end Fsm

end Ppp

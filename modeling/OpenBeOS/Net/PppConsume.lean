import OpenBeOS.Net.PppFsm

/-! # What becomes of a control packet

The chain of mbufs that `fsm_Input` is given, and what happens to it: it is read, freed, or handed to
the output function of the interface. `fsm_Output` hands it over, and `fsm_rconfreq` frees it behind
that.
-/

namespace Ppp

open List FsmState PacketCode

inductive BufEvent where
  | read
  /-- The header is read in an mbuf that `m_pullup` has freed. -/
  | stale
  | freed
  | handed

/-- What `m_pullup` does: it frees the chain, or leaves the first mbuf, or puts all of its bytes into
a new one. -/
inductive Pulled where
  | failed
  | kept
  | moved
  deriving DecidableEq

inductive ControlProtocol where
  | lcp
  | ipcp

def ControlProtocol.min_code : ControlProtocol → Nat
  | _ => 1

def ControlProtocol.max_code : ControlProtocol → Nat
  | lcp => 13
  | ipcp => 7

def MAX_FSM_CODE : Nat := 15

/-- A packet that comes in: the size of its first mbuf and of the chain, the fields of the header, what
`DecodeConfig` finds in it, and how `m_pullup` and `m_prepend` turn out. -/
structure ControlPacket where
  first : Nat
  len : Nat
  code : Nat
  length : Nat
  dec : Decode
  pullHeader : Pulled
  pullRequest : Pulled
  prependReject : Bool
  prepend : PacketCode → Bool

/-- `fsm_Output` for the chain; without memory for its header it only returns. -/
def fsm_Output (prepended : Bool) : List BufEvent :=
  .read :: if prepended then [.read, .handed] else []

namespace ControlPacket

variable (p : ControlPacket)

/-- The answers to a request. -/
def answers : List PacketCode :=
  (if p.dec.rej ≠ [] then [PCC_CONFIGREJ] else []) ++
    (if p.dec.nak ≠ [] then [PCC_CONFIGNAK] else []) ++
    if p.dec.nak = [] ∧ p.dec.rej = [] then [PCC_CONFIGACK] else []

/-- A request that is looked at; every answer reads the header for the id. -/
def decodeRequest : List BufEvent :=
  match p.pullRequest with
  | .failed => [.read, .freed]
  | .kept =>
    .read :: .read :: (p.answers.flatMap fun c => .read :: fsm_Output (p.prepend c)) ++ [.freed]
  | .moved =>
    .read :: .read :: (p.answers.flatMap fun c => .stale :: fsm_Output (p.prepend c)) ++ [.freed]

def fsm_rconfreq (state : FsmState) : List BufEvent :=
  match state with
  | STM_INITIAL | STM_STARTING | STM_CLOSING | STM_STOPPING => [.freed]
  | STM_CLOSED => [.read, .freed]
  | _ => p.decodeRequest

def fsm_rconfack (state : FsmState) : List BufEvent :=
  match state with
  | STM_CLOSED | STM_STOPPED => [.read, .freed]
  | _ => [.freed]

def fsm_invalid : List BufEvent := []

/-- The functions of the table that the code is an index of. -/
def fsm_functions (state : FsmState) : List (List BufEvent) :=
  [fsm_invalid, p.fsm_rconfreq state, fsm_rconfack state]

/-- `fsm_Input`; `none` stands for an index outside the table. -/
def fsm_Input (protocol : ControlProtocol) (state : FsmState) : Option (List BufEvent) :=
  if p.first < 4 ∧ p.pullHeader = .failed then some [.freed]
  else
    (p.fsm_functions state)[p.code]?.map fun recv =>
      .read :: if p.length > p.len then [.freed]
        else if p.code < protocol.min_code ∨ p.code > protocol.max_code ∨ p.code > MAX_FSM_CODE then
          fsm_Output p.prependReject
        else .read :: recv

end ControlPacket

/-- The chain is freed or handed over in the end, and not used behind that. -/
def ConsumedOnce : List BufEvent → Prop
  | [] => False
  | .read :: es => ConsumedOnce es
  | .stale :: _ => False
  | .freed :: es | .handed :: es => es = []

theorem consumedOnce_output (prepended : Bool) :
    ConsumedOnce (fsm_Output prepended) ↔ prepended = true := by
  cases prepended with
  | false => simp [fsm_Output, ConsumedOnce]
  | true => simp [fsm_Output, ConsumedOnce]

namespace ControlPacket

variable {p : ControlPacket} {state : FsmState}

theorem answers_ne_nil (p : ControlPacket) : p.answers ≠ [] := by
  unfold answers
  by_cases hrej : p.dec.rej = []
  · by_cases hnak : p.dec.nak = [] <;> simp [hrej, hnak]
  · simp [hrej]

/-- The chain is still there behind the answers when none of them could be sent. -/
theorem consumedOnce_answers (prepend : PacketCode → Bool) (cs : List PacketCode) :
    ConsumedOnce ((cs.flatMap fun c => .read :: fsm_Output (prepend c)) ++ [.freed]) ↔
      ∀ c ∈ cs, prepend c = false := by
  induction cs with
  | nil => simp [ConsumedOnce]
  | cons c cs ih =>
    rw [flatMap_cons, append_assoc, forall_mem_cons, ← ih]
    cases prepend c with
    | false => simp [fsm_Output, ConsumedOnce]
    | true => simp [fsm_Output, ConsumedOnce]

/-- The request is answered in this state. -/
def Answered : FsmState → Prop
  | STM_STOPPED | STM_REQSENT | STM_ACKRCVD | STM_ACKSENT | STM_OPENED => True
  | _ => False

/-- The chain is not handed over, and its header stays where it is. -/
def Unanswered (p : ControlPacket) : Prop :=
  p.pullRequest = .failed ∨ p.pullRequest = .kept ∧ ∀ c ∈ p.answers, p.prepend c = false

theorem consumedOnce_decodeRequest : ConsumedOnce p.decodeRequest ↔ p.Unanswered := by
  unfold decodeRequest Unanswered
  cases p.pullRequest with
  | failed => simp [ConsumedOnce]
  | kept => simp [ConsumedOnce, consumedOnce_answers]
  | moved =>
    obtain ⟨c, cs, heq⟩ := exists_cons_of_ne_nil p.answers_ne_nil
    simp [ConsumedOnce, heq]

theorem consumedOnce_rconfreq :
    ConsumedOnce (p.fsm_rconfreq state) ↔ (Answered state → p.Unanswered) := by
  cases state <;> simp [fsm_rconfreq, Answered, ConsumedOnce, consumedOnce_decodeRequest]

theorem consumedOnce_rconfack (state : FsmState) : ConsumedOnce (fsm_rconfack state) := by
  cases state <;> simp [fsm_rconfack, ConsumedOnce]

/-- When `fsm_Input` stays inside its table and gets rid of the chain once. -/
def Consumes (p : ControlPacket) (state : FsmState) : Prop :=
  (p.first < 4 ∧ p.pullHeader = .failed) ∨ p.code ≤ 2 ∧
    (p.len < p.length ∨ p.code = 0 ∧ p.prependReject = true ∨
      p.code = 1 ∧ (Answered state → p.Unanswered) ∨ p.code = 2)

/-- A Configure-Request without options, and memory for everything. -/
def emptyRequest : ControlPacket :=
  ⟨4, 4, 1, 4, ⟨[], [], []⟩, .kept, .kept, true, fun _ => true⟩

end ControlPacket

end Ppp

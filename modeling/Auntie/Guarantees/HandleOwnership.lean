import Auntie.Guarantees.OperatorHandles
import Auntie.Guarantees.PlayerHandles

/-!
# Handles over whole runs

The static variables of both `core.c` keep objects from one ECALL to the next. Some are set to
`NULL` when the object is given back, and the operator's signature is left dangling. Whatever ECALLs
arrive in whatever order, and whatever the host answers, no call is handed an object that has been
given back.
-/

namespace Auntie.Guarantees.HandleOwnership
open Auntie.Source Auntie.Interaction Handles

section Statement
variable {Callback : Type}

/-- What an allocator does, whatever is asked of the calls. -/
def allocator : Contract (Call Callback) Unit Memory := handles fun _ _ _ => True

/-- What is live after the events. -/
def memoryOf (events : List (Event (Call Callback))) : Memory := events.foldl allocator.observe {}

/-- No allocation answers with an object that is live. -/
def Allocates (events : List (Event (Call Callback))) : Prop := allocator.Honours {} events

end Statement

section Allocator
variable {Callback σ : Type} {sound : {β : Type} → σ → Memory → Call Callback β → Prop}
  {events : List (Event (Call Callback))}

/-- By induction on the events. -/
theorem honours_iff {m : Memory} :
    (handles @sound).Honours m events ↔ allocator.Honours m events := by
  induction events generalizing m with
  | nil => exact Iff.rfl
  | cons event events ih =>
    cases event with
    | issued c => exact ih
    | answered c answer => exact and_congr Iff.rfl ih

end Allocator

/-- Between two ECALLs every handle that the contract still needs is live, and every call of every
run is sound: the trace that ends with it stands at it. -/
theorem handles_used_while_live (dep : Deployment) :
    (∀ steps last, Run (Player.enclave dep) Player.initial steps last →
      Allocates (eventsOf steps) → PlayerHandles.Kept last (memoryOf (eventsOf steps))) ∧
    (∀ steps last, Trace (Player.enclave dep) Player.initial steps last →
      Allocates (eventsOf steps) → ∀ before {β : Type} (c : Call Player.Callback β),
        eventsOf steps = before ++ [.issued c] → PlayerHandles.Sound last (memoryOf before) c) ∧
    (∀ steps last, Run (Operator.enclave dep) (Operator.initial dep) steps last →
      Allocates (eventsOf steps) → OperatorHandles.Kept last (memoryOf (eventsOf steps))) ∧
    (∀ steps last, Trace (Operator.enclave dep) (Operator.initial dep) steps last →
      Allocates (eventsOf steps) → ∀ before {β : Type} (c : Call Operator.Callback β),
        eventsOf steps = before ++ [.issued c] →
          OperatorHandles.Sound dep.build.numPlayers last (memoryOf before) c) := by
  refine ⟨?_, ?_, ?_, ?_⟩
  · exact fun steps last run hallocates => PlayerHandles.run_kept run (honours_iff.mpr hallocates)
  · intro steps last trace hallocates before β c hevents
    exact PlayerHandles.trace_sound trace (honours_iff.mpr hallocates) hevents
  · exact fun steps last run hallocates => OperatorHandles.run_kept run (honours_iff.mpr hallocates)
  · intro steps last trace hallocates before β c hevents
    exact OperatorHandles.trace_sound trace (honours_iff.mpr hallocates) hevents

section Played
variable {Callback β : Type}

instance (m : Memory) (c : Call Callback β) (answer : β) : Decidable (allocator.assumes m c answer) :=
  inferInstanceAs (Decidable (∀ object ∈ acquired c answer, object ∉ m.live))

instance (events : List (Event (Call Callback))) : Decidable (Allocates events) :=
  inferInstanceAs (Decidable (allocator.Honours {} events))

/-- Every object lies at an address of its own. -/
def allocatingHost (receive : Nat → ChannelRef → ReceivedMessage) (time : Nat) :
    Call Callback β → Option β
  | .malloc _ => some (some (time + 10))
  | .auntieMsgReceive channel => some (some { receive time channel with address := time + 10 })
  | .ocallQuoteMe _ => some (0, [⟨[1], some (time + 10)⟩])
  | .zcashCreateKey => some (some (time + 10))
  | .zcashDeriveAddress _ => some (some (time + 10))
  | .zcashImportAddress _ => some (some (time + 10))
  | .zcashImportAdvice _ => some (some (time + 10))
  | .zcashImportTransaction _ => some (some (time + 10))
  | .zcashImportSignature _ => some (some (time + 10))
  | .zcashCreateAdvice _ => some (some (time + 10))
  | .zcashSignTransaction _ _ _ => some (some (time + 10))
  | .zcashCreateTransaction _ _ _ _ _ _ => some (some (time + 10))
  | .zcashAuthorizeTransaction _ _ => some (some (time + 10))
  | c => obligingHost (fun _ _ => none) (fun _ => 0) time c

def playerHost {β : Type} : Nat → Call Player.Callback β → Option β :=
  allocatingHost fun time _ => Player.contractMessages time

def operatorHost {β : Type} : Nat → Call Operator.Callback β → Option β :=
  allocatingHost Operator.contractMessages

def playerSteps (ops : List Player.Ecall) : List (Step (Player.enclave zeroDeployment)) :=
  playRun (Player.enclave zeroDeployment) playerHost 0 Player.initial ops

def operatorSteps (ops : List Operator.Ecall) : List (Step (Operator.enclave zeroDeployment)) :=
  playRun (Operator.enclave zeroDeployment) operatorHost 0 (Operator.initial zeroDeployment) ops

/-- A host on which no address can be derived, and that does not answer after that. -/
def forgetfulHost (time : Nat) : Call Callback β → Option β
  | .zcashDeriveAddress _ => some none
  | .zcashReleaseKey _ => none
  | c => obligingHost (fun _ _ => none) (fun _ => 0) time c

/-- What such a host sees of an initialization before its last call. -/
def forgetfulEvents (Callback : Type) : List (Event (Call Callback)) :=
  [.issued .zcashCreateKey, .answered .zcashCreateKey (some 1), .issued (.zcashDeriveAddress 1),
    .answered (.zcashDeriveAddress 1) none]

/-- With the deposits put out and with the contract cleared, and at a call inside an ECALL. -/
theorem handles_used_while_live_played :
    PlayerHandles.Kept (lastState _ Player.initial (playerSteps Player.contract.dropLast))
        (memoryOf (eventsOf (playerSteps Player.contract.dropLast))) ∧
      PlayerHandles.Sound Player.initial (memoryOf (forgetfulEvents Player.Callback))
        (.zcashReleaseKey 1) ∧
      OperatorHandles.Kept
        (lastState _ (Operator.initial zeroDeployment) (operatorSteps Operator.contract.dropLast))
        (memoryOf (eventsOf (operatorSteps Operator.contract.dropLast))) ∧
      OperatorHandles.Sound 3 (Operator.initial zeroDeployment)
        (memoryOf (forgetfulEvents Operator.Callback)) (.zcashReleaseKey 1) := by
  obtain ⟨hplayer, hplayerTrace, hoperator, hoperatorTrace⟩ := handles_used_while_live zeroDeployment
  refine ⟨hplayer _ _ ?_ ?_, ?_, hoperator _ _ ?_ ?_, ?_⟩
  · exact run_playRun (Player.enclave zeroDeployment) playerHost Player.initial Player.contract.dropLast
      (by decide +kernel)
  · decide +kernel
  · exact hplayerTrace [playStep _ forgetfulHost 0 _ (.ecallInitialize 0)] _
      (.inside .start (playStep_valid _ forgetfulHost 0 _ _) (by rfl)) (by decide +kernel) _ _ rfl
  · exact run_playRun (Operator.enclave zeroDeployment) operatorHost (Operator.initial zeroDeployment)
      Operator.contract.dropLast (by decide +kernel)
  · decide +kernel
  · exact hoperatorTrace [playStep _ forgetfulHost 0 _ (.ecallInitialize 0)] _
      (.inside .start (playStep_valid _ forgetfulHost 0 _ _) (by rfl)) (by decide +kernel) _ _ rfl

end Played

end Auntie.Guarantees.HandleOwnership

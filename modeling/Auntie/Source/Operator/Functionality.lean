import Auntie.Source.Operator.Players

/-!
# The functionality of the contract

Embeds `operator/trusted/functionality.c`: a lottery that moves the winner's payout and
output without branching on the winner.
-/

namespace Auntie.Source.Operator
open Auntie.Interaction

section Branchless

/-- `conditional_move` of `length` bytes. -/
def conditionalMove (out input : Bytes) (length : Nat) (move : UInt32) : Bytes :=
  let mask : UInt8 := (-move).toUInt8
  let rmask : UInt8 := ~~~mask
  List.zipWith (fun bin bout => (bin &&& mask) ^^^ (bout &&& rmask)) (input.take length)
      (out.take length) ++ out.drop length

/-- The bits of `i ^ winner` folded into the lowest one and inverted: 1 if `i == winner` and
0 otherwise. -/
def moveBit (i winner : UInt32) : UInt32 :=
  let move := i ^^^ winner
  let move := move ||| (move >>> 16)
  let move := move ||| (move >>> 8)
  let move := move ||| (move >>> 4)
  let move := move ||| (move >>> 2)
  let move := move ||| (move >>> 1)
  (move ^^^ 1) &&& 1

end Branchless

/-- `"YOU WIN!"` with its terminator. -/
def winnerMessage : Bytes := [0x59, 0x4f, 0x55, 0x20, 0x57, 0x49, 0x4e, 0x21, 0x00]

/-- `"YOU LOSE"` with its terminator. -/
def loserMessage : Bytes := [0x59, 0x4f, 0x55, 0x20, 0x4c, 0x4f, 0x53, 0x45, 0x00]

/-- What `evaluate_functionality` returns and leaves in its arrays: the outputs up to the
first that is `NULL`, and the payouts. -/
structure Evaluation where
  ret : Int32
  outputs : List Buffer
  payouts : List Nat

/-- A buffer with the loser's message for each player, up to the first that cannot be
allocated. -/
def allocateOutputs : Nat → Code (List Buffer)
  | 0 => return []
  | count + 1 => do
    let some address ← issue (.malloc loserMessage.length) | return []
    return ⟨address, loserMessage⟩ :: (← allocateOutputs count)

def freeAll : List Buffer → Code Unit
  | [] => return ()
  | buffer :: rest => do
    issue (.free buffer.address)
    freeAll rest

def drawOutput (winner : UInt32) (i : Nat) (output : Buffer) : Buffer :=
  ⟨output.address, conditionalMove output.contents winnerMessage winnerMessage.length
    (moveBit (.ofNat i) winner)⟩

def drawPayout (winner : UInt32) (sumDeposit i : Nat) : Nat :=
  leValue (conditionalMove (leBytes 8 0) (leBytes 8 sumDeposit) 8 (moveBit (.ofNat i) winner))

/-- When an output cannot be allocated those before it are freed, and stay in the array. -/
def evaluateFunctionality (numPlayers : Nat) (deposits : List Nat) : Code Evaluation := do
  let some random ← issue (.sgxReadRand 4) | return ⟨-efault, [], []⟩
  let winner : UInt32 := .ofNat (leValue random.val % numPlayers)
  let sumDeposit := deposits.sum % 2 ^ 64
  let outputs ← allocateOutputs numPlayers
  if outputs.length < numPlayers then
    freeAll outputs
    return ⟨-enomem, outputs, []⟩
  return ⟨0, outputs.mapIdx (drawOutput winner),
    (List.range numPlayers).map (drawPayout winner sumDeposit)⟩

end Auntie.Source.Operator

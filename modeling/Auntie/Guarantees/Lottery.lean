import Auntie.Guarantees.MoneyConservation

/-!
# The lottery without a branch

The functionality of the contract moves the winner's payout and output by a comparison folded
from the bits of an exclusive or and by a masked select of bytes. What it leaves is what a
comparison and a branch would leave, and every output has the length of every other.
-/

namespace Auntie.Guarantees.Lottery
open Auntie.Source Auntie.Source.Operator Auntie.Interaction
open MoneyConservation (moveBit_eq moved_byte kept_byte conditionalMove_eq drawPayout_eq)

section Statement

/-- The lottery with a branch. -/
structure Drawn (numPlayers : Nat) (deposits : List Nat) (winner : Nat) (evaluation : Evaluation) :
    Prop where
  payouts : evaluation.payouts =
    (List.range numPlayers).map fun i => if i = winner then deposits.sum % 2 ^ 64 else 0
  outputs : evaluation.outputs.map Buffer.contents =
    (List.range numPlayers).map fun i => if i = winner then winnerMessage else loserMessage

def outputLengths (evaluation : Evaluation) : List Nat :=
  evaluation.outputs.map fun output => output.contents.length

/-- The masked loop over bytes keeps its target or replaces the first `length` bytes of it. -/
def Selects : Prop :=
  ∀ (out input : Bytes) (length : Nat), length ≤ out.length → length ≤ input.length →
    conditionalMove out input length 0 = out ∧
      conditionalMove out input length 1 = input.take length ++ out.drop length

end Statement

section Select

theorem zipWith_left {α : Type} {first second : List α} (h : first.length = second.length) :
    List.zipWith (fun value _ => value) first second = first := by
  induction first generalizing second with
  | nil => rfl
  | cons value first ih =>
    cases second with
    | nil => cases h
    | cons other second =>
      rw [List.zipWith_cons_cons, ih (Nat.succ.inj h)]

theorem zipWith_right {α : Type} {first second : List α} (h : first.length = second.length) :
    List.zipWith (fun _ value => value) first second = second := by
  rw [List.zipWith_comm]
  exact zipWith_left h.symm

theorem conditionalMove_selects : Selects := by
  intro out input length hout hinput
  have hlengths : (input.take length).length = (out.take length).length := by
    rw [List.length_take, List.length_take]
    omega
  constructor
  · simp only [conditionalMove, kept_byte]
    rw [zipWith_right hlengths, List.take_append_drop]
  · simp only [conditionalMove, moved_byte]
    rw [zipWith_left hlengths]

end Select

section Draw

/-- The `i`-th of fewer than `2^32` players wins exactly when it is drawn. -/
theorem ofNat_eq_iff {numPlayers i winner : Nat} (hplayers : numPlayers < 2 ^ 32)
    (hi : i < numPlayers) (hwinner : winner < numPlayers) :
    UInt32.ofNat i = UInt32.ofNat winner ↔ i = winner := by
  rw [← UInt32.toNat_inj, UInt32.toNat_ofNat_of_lt' (hi.trans hplayers),
    UInt32.toNat_ofNat_of_lt' (hwinner.trans hplayers)]

theorem drawOutput_contents (winner : UInt32) (i : Nat) {output : Buffer}
    (houtput : output.contents = loserMessage) : (drawOutput winner i output).contents =
      if UInt32.ofNat i = winner then winnerMessage else loserMessage := by
  have hlength : loserMessage.length = winnerMessage.length := rfl
  rw [drawOutput, houtput, moveBit_eq]
  exact conditionalMove_eq hlength rfl (UInt32.ofNat i = winner)

theorem drawn_outputs {numPlayers winner : Nat} (hplayers : numPlayers < 2 ^ 32)
    (hwinner : winner < numPlayers) {outputs : List Buffer} (hlength : outputs.length = numPlayers)
    (houtputs : ∀ output ∈ outputs, output.contents = loserMessage) :
    (outputs.mapIdx (drawOutput (.ofNat winner))).map Buffer.contents =
      (List.range numPlayers).map fun i => if i = winner then winnerMessage else loserMessage := by
  apply List.ext_getElem
  · simp [hlength]
  · intro i hi _
    have hi : i < numPlayers := by simpa [hlength] using hi
    have hcontents := houtputs outputs[i] (List.getElem_mem _)
    rw [List.getElem_map, List.getElem_mapIdx, drawOutput_contents _ _ hcontents,
      List.getElem_map, List.getElem_range]
    simp only [ofNat_eq_iff hplayers hi hwinner]

theorem drawn_payouts {numPlayers winner sumDeposit : Nat} (hplayers : numPlayers < 2 ^ 32)
    (hwinner : winner < numPlayers) (hsum : sumDeposit < 2 ^ 64) :
    (List.range numPlayers).map (drawPayout (.ofNat winner) sumDeposit) =
      (List.range numPlayers).map fun i => if i = winner then sumDeposit else 0 := by
  apply List.map_congr_left
  intro i hi
  rw [drawPayout_eq _ hsum]
  simp only [ofNat_eq_iff hplayers (List.mem_range.mp hi) hwinner]

/-- The two messages are equally long. -/
theorem Drawn.lengths {numPlayers winner : Nat} {deposits : List Nat} {evaluation : Evaluation}
    (h : Drawn numPlayers deposits winner evaluation) :
    outputLengths evaluation = List.replicate numPlayers loserMessage.length := by
  have hlengths : outputLengths evaluation =
      (evaluation.outputs.map Buffer.contents).map List.length := by
    rw [List.map_map]
    rfl
  rw [hlengths, h.outputs, List.map_map, List.eq_replicate_iff]
  constructor
  · simp
  · intro length hlength
    obtain ⟨i, _, rfl⟩ := List.mem_map.mp hlength
    simp only [Function.comp]
    split
    · rfl
    · rfl

end Draw

section Run
variable {globals last : Globals} {events : List (Event (Call Callback))}

theorem allocateOutputs_spec (count : Nat) :
    wp tape (fun outputs _ later => (∃ more, later = events ++ more) ∧ outputs.length ≤ count ∧
        ∀ output ∈ outputs, output.contents = loserMessage)
      (allocateOutputs count) globals events := by
  induction count generalizing events with
  | zero => exact ⟨⟨[], (List.append_nil _).symm⟩, le_rfl, List.forall_mem_nil _⟩
  | succ count ih =>
    simp only [allocateOutputs, wp_bind, wp_tape_issue]
    intro address
    cases address with
    | none => exact ⟨⟨_, rfl⟩, Nat.zero_le _, List.forall_mem_nil _⟩
    | some address =>
      rw [wp_bind]
      refine wp_mono ?_ ih
      intro outputs last later h
      obtain ⟨⟨more, hmore⟩, hlength, houtputs⟩ := h
      refine ⟨?_, Nat.succ_le_succ hlength, ?_⟩
      · exact ⟨_, hmore.trans (List.append_assoc _ _ _)⟩
      · exact List.forall_mem_cons.mpr ⟨rfl, houtputs⟩

/-- The second event of an evaluation that succeeds is the random value. -/
def Evaluated (numPlayers : Nat) (deposits : List Nat) (evaluation : Evaluation)
    (events : List (Event (Call Callback))) : Prop :=
  evaluation.ret = 0 → ∃ random : FixedBytes 4,
    events[1]? = some (.answered (.sgxReadRand 4) (some random)) ∧
      Drawn numPlayers deposits (leValue random.val % numPlayers) evaluation

theorem evaluateFunctionality_spec {numPlayers : Nat} (hpositive : 1 ≤ numPlayers)
    (hplayers : numPlayers < 2 ^ 31) (deposits : List Nat) :
    wp tape (fun evaluation _ events => Evaluated numPlayers deposits evaluation events)
      (evaluateFunctionality numPlayers deposits) globals [] := by
  simp only [evaluateFunctionality, wp_bind, wp_tape_issue]
  intro random
  cases random with
  | none => exact fun h => absurd h efault_error
  | some random =>
    rw [wp_bind]
    refine wp_mono ?_ (allocateOutputs_spec numPlayers)
    intro outputs last events houtputs
    obtain ⟨⟨more, rfl⟩, hlength, hcontents⟩ := houtputs
    simp only [wp_ite, wp_bind, wp_pure]
    constructor
    · intro _
      have hfree : (freeAll outputs).Within Call.Internal fun _ => True := freeAll_within outputs
      have hknows : ∀ events later : List (Event (Call Callback)), True → True := fun _ _ h => h
      exact hfree.tape hknows trivial trivial fun _ _ _ _ _ h => absurd h enomem_error
    · intro hall _
      have hcount : outputs.length = numPlayers := by omega
      have hwinner : leValue random.val % numPlayers < numPlayers := Nat.mod_lt _ hpositive
      have hsmall : numPlayers < 2 ^ 32 := by omega
      have hsum : deposits.sum % 2 ^ 64 < 2 ^ 64 := Nat.mod_lt _ (by decide)
      refine ⟨random, rfl, ?_, ?_⟩
      · exact drawn_payouts hsmall hwinner hsum
      · exact drawn_outputs hsmall hwinner hcount hcontents

/-- The masked moves are a comparison and a branch, on every word and every buffer; an evaluation
that succeeds is the plain lottery for the random value it was given; and the lengths of its
outputs are those of any other that succeeds. -/
theorem lottery_drawn {numPlayers : Nat} (hpositive : 1 ≤ numPlayers) (hplayers : numPlayers < 2 ^ 31)
    {deposits : List Nat} {evaluation : Evaluation}
    (hrun : Exec (evaluateFunctionality numPlayers deposits) globals events last (some evaluation))
    (hret : evaluation.ret = 0) :
    (∀ i winner : UInt32, moveBit i winner = if i = winner then 1 else 0) ∧ Selects ∧
      (∃ random : FixedBytes 4,
        events[1]? = some (.answered (.sgxReadRand 4) (some random)) ∧
          Drawn numPlayers deposits (leValue random.val % numPlayers) evaluation) ∧
      ∀ {deposits' : List Nat} {globals' last' : Globals} {events' : List (Event (Call Callback))}
        {evaluation' : Evaluation},
        Exec (evaluateFunctionality numPlayers deposits') globals' events' last' (some evaluation') →
          evaluation'.ret = 0 → outputLengths evaluation' = outputLengths evaluation := by
  have hevaluated := hrun.taped (evaluateFunctionality_spec hpositive hplayers deposits) hret
  refine ⟨moveBit_eq, conditionalMove_selects, hevaluated, ?_⟩
  intro deposits' globals' last' events' evaluation' hrun' hret'
  obtain ⟨_, _, hdrawn⟩ := hevaluated
  obtain ⟨_, _, hdrawn'⟩ :=
    hrun'.taped (evaluateFunctionality_spec hpositive hplayers deposits') hret'
  rw [hdrawn.lengths, hdrawn'.lengths]

end Run

section Examples

/-- Three players, and the random value zero. -/
def lotteryPlay : List (Event (Call Callback)) × Globals × Option Evaluation :=
  play (obligingHost (fun _ _ => none) fun _ => 0) 0 (evaluateFunctionality 3 [10, 20, 30])
    { players := [] }

theorem lottery_drawn_played : ∃ evaluation, lotteryPlay.2.2 = some evaluation ∧
    evaluation.payouts = [60, 0, 0] ∧ ∃ random : FixedBytes 4,
      Drawn 3 [10, 20, 30] (leValue random.val % 3) evaluation := by
  have hsome : lotteryPlay.2.2.isSome := rfl
  obtain ⟨evaluation, hevaluation⟩ := Option.isSome_iff_exists.mp hsome
  have hrun : Exec (evaluateFunctionality 3 [10, 20, 30]) { players := [] } lotteryPlay.1
      lotteryPlay.2.1 lotteryPlay.2.2 := exec_play _ 0 _ _
  rw [hevaluation] at hrun
  have hret : (lotteryPlay.2.2.map Evaluation.ret) = some 0 := by decide +kernel
  have hpayouts : (lotteryPlay.2.2.map Evaluation.payouts) = some [60, 0, 0] := by decide +kernel
  rw [hevaluation] at hret hpayouts
  obtain ⟨_, _, ⟨random, _, hdrawn⟩, _⟩ :=
    lottery_drawn (by decide) (by decide) hrun (Option.some.inj hret)
  exact ⟨evaluation, hevaluation, Option.some.inj hpayouts, random, hdrawn⟩

end Examples

end Auntie.Guarantees.Lottery

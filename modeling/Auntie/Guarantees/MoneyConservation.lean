import Auntie.Guarantees.DepositDecoding

/-!
# The settlement pays out what was deposited

The operator's enclave subtracts the fees from every deposit, moves the rest to the winner
without a branch and pays the operator apart. All of it is unsigned 64-bit arithmetic; the
miner's fee of every party is exactly what the payouts leave of the deposits.
-/

namespace Auntie.Guarantees.MoneyConservation
open Auntie.Source Auntie.Source.Operator Auntie.Interaction

section Branchless

/-- One of the `width` lowest bits is set. -/
def LowBit (x : UInt32) (width : Nat) : Prop := ∃ k < width, x.toNat.testBit k

theorem LowBit.of_ne_zero {x : UInt32} (h : x ≠ 0) : LowBit x 32 := by
  have hne : x.toNat ≠ 0 := fun hzero => h (UInt32.toNat_inj.mp hzero)
  obtain ⟨k, hk⟩ := Nat.exists_testBit_of_ne_zero hne
  refine ⟨k, ?_, hk⟩
  by_contra hge
  have hpow := Nat.pow_le_pow_right (show 0 < 2 by decide) (not_lt.mp hge)
  rw [Nat.testBit_lt_two_pow (x.toNat_lt.trans_le hpow)] at hk
  cases hk

/-- The upper half of the bits is folded onto the lower half. -/
theorem LowBit.fold {x : UInt32} {width : Nat} (shift : UInt32)
    (hshift : shift.toNat % 32 = width) (h : LowBit x (2 * width)) :
    LowBit (x ||| x >>> shift) width := by
  obtain ⟨k, hk, hset⟩ := h
  have hbit (j : Nat) : (x ||| x >>> shift).toNat.testBit j =
      (x.toNat.testBit j || x.toNat.testBit (width + j)) := by
    rw [UInt32.toNat_or, UInt32.toNat_shiftRight, hshift, Nat.testBit_or, Nat.testBit_shiftRight]
  by_cases hlow : k < width
  · exact ⟨k, hlow, by rw [hbit, hset, Bool.true_or]⟩
  · refine ⟨k - width, by omega, ?_⟩
    rw [hbit, Nat.add_sub_cancel' (not_lt.mp hlow), hset, Bool.or_true]

theorem LowBit.inverted {x : UInt32} (h : LowBit x 1) : (x ^^^ 1) &&& 1 = 0 := by
  obtain ⟨k, hk, hset⟩ := h
  obtain rfl : k = 0 := by omega
  have hbit : (x.toNat ^^^ 1).testBit 0 = false := by
    rw [Nat.testBit_xor, hset]
    rfl
  rw [Nat.testBit_zero, decide_eq_false_iff_not] at hbit
  apply UInt32.toNat_inj.mp
  rw [UInt32.toNat_and, UInt32.toNat_xor, UInt32.toNat_one, Nat.and_one_is_mod, UInt32.toNat_zero]
  omega

/-- The comparison without a branch. -/
theorem moveBit_eq (i winner : UInt32) : moveBit i winner = if i = winner then 1 else 0 := by
  by_cases h : i = winner
  · simp [moveBit, h]
  · have hne : i ^^^ winner ≠ 0 := fun hzero => h (UInt32.xor_eq_zero_iff.mp hzero)
    have hlow : LowBit (i ^^^ winner) 32 := .of_ne_zero hne
    rw [if_neg h]
    exact (((((hlow.fold 16 rfl).fold 8 rfl).fold 4 rfl).fold 2 rfl).fold 1 rfl).inverted

theorem moved_byte (bin bout : UInt8) :
    (bin &&& (-1 : UInt32).toUInt8) ^^^ (bout &&& ~~~(-1 : UInt32).toUInt8) = bin := by
  have hmask : (-1 : UInt32).toUInt8 = -1 := by decide
  rw [hmask]
  simp

theorem kept_byte (bin bout : UInt8) :
    (bin &&& (-0 : UInt32).toUInt8) ^^^ (bout &&& ~~~(-0 : UInt32).toUInt8) = bout := by
  have hmask : (-0 : UInt32).toUInt8 = 0 := by decide
  rw [hmask]
  simp

theorem conditionalMove_eq {out input : Bytes} {length : Nat} (hout : out.length = length)
    (hin : input.length = length) (move : Prop) [Decidable move] :
    conditionalMove out input length (if move then 1 else 0) = if move then input else out := by
  rw [conditionalMove, List.take_of_length_le hin.le, List.take_of_length_le hout.le,
    List.drop_of_length_le hout.le, List.append_nil]
  by_cases hmove : move
  · simp only [if_pos hmove, moved_byte]
    refine List.ext_getElem (by simp [hin, hout]) fun i _ _ => ?_
    rw [List.getElem_zipWith]
  · simp only [if_neg hmove, kept_byte]
    refine List.ext_getElem (by simp [hin, hout]) fun i _ _ => ?_
    rw [List.getElem_zipWith]

theorem drawPayout_eq (winner : UInt32) {sumDeposit : Nat} (hsum : sumDeposit < 2 ^ 64) (i : Nat) :
    drawPayout winner sumDeposit i = if UInt32.ofNat i = winner then sumDeposit else 0 := by
  rw [drawPayout, moveBit_eq, conditionalMove_eq (leBytes_length 8 0) (leBytes_length 8 _)]
  by_cases h : UInt32.ofNat i = winner
  · rw [if_pos h, if_pos h, leValue_leBytes]
    exact Nat.mod_eq_of_lt hsum
  · rw [if_neg h, if_neg h, leValue_leBytes]
    rfl

theorem sum_indicator (value w n : Nat) :
    ((List.range n).map fun i => if i = w then value else 0).sum = if w < n then value else 0 := by
  induction n with
  | zero => rfl
  | succ n ih =>
    rw [List.range_succ, List.map_append, List.sum_append, ih, List.map_singleton,
      List.sum_singleton]
    by_cases heq : n = w
    · have hlt : ¬ w < n := by omega
      have hlt' : w < n + 1 := by omega
      rw [if_pos heq, if_neg hlt, if_pos hlt', Nat.zero_add]
    · have hsame : w < n + 1 ↔ w < n := by omega
      simp only [if_neg heq, hsame, Nat.add_zero]

/-- Whoever wins, the payouts add up to the deposits. -/
theorem sum_drawPayout {numPlayers w sumDeposit : Nat} (hw : w < numPlayers)
    (hplayers : numPlayers < 2 ^ 32) (hsum : sumDeposit < 2 ^ 64) :
    ((List.range numPlayers).map (drawPayout (.ofNat w) sumDeposit)).sum = sumDeposit := by
  have hdraw : (List.range numPlayers).map (drawPayout (.ofNat w) sumDeposit) =
      (List.range numPlayers).map fun i => if i = w then sumDeposit else 0 := by
    refine List.map_congr_left fun i hi => ?_
    have hi := List.mem_range.mp hi
    have hsame : UInt32.ofNat i = UInt32.ofNat w ↔ i = w := by
      rw [← UInt32.toNat_inj, UInt32.toNat_ofNat_of_lt' (hi.trans hplayers),
        UInt32.toNat_ofNat_of_lt' (hw.trans hplayers)]
    rw [drawPayout_eq _ hsum]
    simp only [hsame]
  rw [hdraw, sum_indicator, if_pos hw]

end Branchless

section Law

/-- The constants are C `int`s, and so are the sums and the product the enclave forms. -/
structure CInts (build : Build) : Prop where
  players : 1 ≤ build.numPlayers
  players_lt : build.numPlayers < 2 ^ 31
  collateral_lt : build.operatorCollateral + build.minerFeePerParty < 2 ^ 31
  fees_lt : build.minerFeePerParty + build.operatorFeePerPlayer < 2 ^ 31
  operatorFees_lt : build.operatorFeePerPlayer * build.numPlayers < 2 ^ 31

/-- The payouts against the operator's collateral and the amounts the players deposit. -/
structure Conserved (build : Build) (collateral : Nat) (amounts payouts : List Nat) : Prop where
  amounts_length : amounts.length = build.numPlayers
  payouts_length : payouts.length = build.numPlayers + 1
  collateral_covers : build.minerFeePerParty ≤ collateral
  amounts_cover : ∀ amount ∈ amounts,
    build.minerFeePerParty + build.operatorFeePerPlayer ≤ amount
  operator : collateral + amounts.sum < 2 ^ 64 → payouts[0]? = some
    (collateral - build.minerFeePerParty + build.numPlayers * build.operatorFeePerPlayer)
  total : collateral + amounts.sum < 2 ^ 64 →
    payouts.sum + (build.numPlayers + 1) * build.minerFeePerParty = collateral + amounts.sum
  wrapped : (payouts.sum + (build.numPlayers + 1) * build.minerFeePerParty) % 2 ^ 64 =
    (collateral + amounts.sum) % 2 ^ 64

theorem sum_sub {fees : Nat} {amounts : List Nat} (h : ∀ amount ∈ amounts, fees ≤ amount) :
    (amounts.map (· - fees)).sum + amounts.length * fees = amounts.sum := by
  induction amounts with
  | nil => simp
  | cons amount amounts ih =>
    have hrest := ih fun other hother => h other (List.mem_cons_of_mem _ hother)
    have hfirst := h amount List.mem_cons_self
    simp only [List.map_cons, List.sum_cons, List.length_cons, Nat.succ_mul]
    omega

/-- The law of the arithmetic: what the players are paid adds up, modulo `2^64`, to their
deposits less the fees. -/
theorem Conserved.of_sum {build : Build} {collateral : Nat} {amounts payouts : List Nat}
    (hamounts : amounts.length = build.numPlayers) (hpayouts : payouts.length = build.numPlayers)
    (hcollateral : build.minerFeePerParty ≤ collateral)
    (hfees : ∀ amount ∈ amounts, build.minerFeePerParty + build.operatorFeePerPlayer ≤ amount)
    (hsum : payouts.sum = (amounts.map
      (· - (build.minerFeePerParty + build.operatorFeePerPlayer))).sum % 2 ^ 64) :
    Conserved build collateral amounts (operatorPayout build collateral :: payouts) := by
  have hdeposits := sum_sub hfees
  have hproduct : build.operatorFeePerPlayer * build.numPlayers =
      build.numPlayers * build.operatorFeePerPlayer := Nat.mul_comm _ _
  rw [hamounts, Nat.mul_add] at hdeposits
  have hwrapped : sub64 collateral build.minerFeePerParty =
      (collateral - build.minerFeePerParty) % 2 ^ 64 := by
    unfold sub64
    omega
  refine ⟨hamounts, by simp [hpayouts], hcollateral, hfees, fun hsmall => ?_, fun hsmall => ?_, ?_⟩
  · rw [List.getElem?_cons_zero, operatorPayout, hwrapped, hproduct]
    congr 1
    omega
  · rw [List.sum_cons, operatorPayout, hwrapped, hproduct, hsum, Nat.succ_mul]
    omega
  · rw [List.sum_cons, operatorPayout, hwrapped, hproduct, hsum, Nat.succ_mul]
    omega

end Law

section Run

/-- The amount that an answer tells of: the operator's collateral, or the deposit of the player
that has sent the message. -/
def amountOf {β : Type} (c : Call Callback β) (answer : β) : Option Nat :=
  match c with
  | .zcashDepositedAmount _ _ => some answer
  | .auntieMsgReceive _ => answer.map DepositAndInput.depositAmount
  | _ => none

def deposited : Event (Call Callback) → Option Nat
  | .issued _ => none
  | .answered c answer => amountOf c answer

/-- The deposits so far, and what a settlement has to pay out of them. -/
def ledger (build : Build) : Monitor (Call Callback) Globals (List Nat) where
  answered deposits c answer :=
    match amountOf c answer with
    | some amount => deposits ++ [amount]
    | none => deposits
  safe _ deposits c :=
    match c with
    | .zcashCreateTransaction _ payouts _ _ _ _ =>
      ∃ collateral amounts, deposits = collateral :: amounts ∧
        Conserved build collateral amounts payouts
    | _ => True

theorem foldl_ledger (build : Build) (deposits : List Nat)
    (events : List (Event (Call Callback))) :
    events.foldl (ledger build).observe deposits = deposits ++ events.filterMap deposited := by
  induction events generalizing deposits with
  | nil => simp
  | cons event events ih =>
    cases event with
    | issued c => exact ih deposits
    | answered c answer =>
      rw [List.foldl_cons, ih]
      simp only [Monitor.observe, ledger, List.filterMap_cons, deposited]
      cases amountOf c answer with
      | none => rfl
      | some amount => exact List.append_assoc _ _ _

variable {build : Build} {globals : Globals} {deposits : List Nat} {collected : Collected}

def CreatesNothing {β : Type} : Call Callback β → Prop
  | .zcashCreateTransaction _ _ _ _ _ _ => False
  | _ => True

theorem createsNothing {β : Type} (c : Call Callback β) (h : c.Internal) : CreatesNothing c := by
  cases c with
  | zcashCreateTransaction => exact absurd h id
  | _ => trivial

/-- The code around the creation of the settlement. -/
theorem wp_createsNothing {α : Type} {p : Code α} {keeps : Globals → Prop}
    (h : p.Within CreatesNothing keeps) (hstate : keeps globals)
    {post : α → Globals → List Nat → Prop} (hpost : ∀ value last deposits, post value last deposits) :
    wp (ledger build) post p globals deposits := by
  have hsafe {β : Type} (current : Globals) (m : List Nat) (c : Call Callback β)
      (hc : CreatesNothing c) (_ : True) : (ledger build).safe current m c := by
    cases c with
    | zcashCreateTransaction => exact absurd hc id
    | _ => trivial
  have hknows {β : Type} (c : Call Callback β) (answer : β) (m : List Nat) (_ : CreatesNothing c)
      (_ : True) : True := trivial
  exact h.wp hsafe hknows hstate trivial fun value last deposits _ _ => hpost value last deposits

/-- One deposit, of which the fees are subtracted. -/
theorem decodeDeposit_spec (msg : ReceivedMessage) :
    wp (ledger build) (fun result _ deposits' => deposits' = deposits ∧ (result.1 = 0 →
        build.minerFeePerParty + build.operatorFeePerPlayer ≤ DepositAndInput.depositAmount msg ∧
        result.2.depositAmounts = collected.depositAmounts ++ [DepositAndInput.depositAmount msg -
          (build.minerFeePerParty + build.operatorFeePerPlayer)]))
      (decodeDeposit build msg collected) globals deposits := by
  simp only [decodeDeposit, wp_bind, wp_issue]
  refine ⟨trivial, fun transaction => ?_⟩
  cases transaction with
  | none => exact ⟨trivial, fun _ => ⟨rfl, fun h => absurd h einval_error⟩⟩
  | some transaction =>
    simp only [wp_bind, wp_issue]
    refine ⟨trivial, fun raw => ?_⟩
    cases raw with
    | none => exact ⟨trivial, fun _ => ⟨rfl, fun h => absurd h enomem_error⟩⟩
    | some raw =>
      simp only [decodeInput, wp_ite, wp_pure, wp_bind, wp_issue]
      refine ⟨fun _ => ⟨rfl, fun h => absurd h einval_error⟩,
        fun hfees => ⟨trivial, fun input => ?_⟩⟩
      cases input with
      | none => exact ⟨trivial, fun _ => ⟨rfl, fun h => absurd h enomem_error⟩⟩
      | some input =>
        simp only [decodeParty, wp_bind, wp_issue]
        refine ⟨trivial, fun payoutAddress => ?_⟩
        cases payoutAddress with
        | none => exact ⟨trivial, fun _ => ⟨rfl, fun h => absurd h einval_error⟩⟩
        | some payoutAddress =>
          simp only [wp_bind, wp_issue]
          refine ⟨trivial, fun advice => ?_⟩
          cases advice with
          | none => exact ⟨trivial, fun _ => ⟨rfl, fun h => absurd h einval_error⟩⟩
          | some advice =>
            refine ⟨trivial, fun _ => ⟨rfl, fun _ => ⟨not_lt.mp hfees, ?_⟩⟩⟩
            rw [← DepositDecoding.sub64_fees (not_lt.mp hfees)]
            rfl

/-- The deposits of the players at the given indices. -/
theorem collectDeposits_spec (indices : List Nat) :
    wp (ledger build) (fun result _ deposits' => result.1 = 0 → ∃ amounts,
        deposits' = deposits ++ amounts ∧ amounts.length = indices.length ∧
        (∀ amount ∈ amounts, build.minerFeePerParty + build.operatorFeePerPlayer ≤ amount) ∧
        result.2.depositAmounts = collected.depositAmounts ++ amounts.map
          (· - (build.minerFeePerParty + build.operatorFeePerPlayer)))
      (collectDeposits build indices collected) globals deposits := by
  induction indices generalizing collected globals deposits with
  | nil => exact fun _ => ⟨[], by simp, rfl, (by simp), by simp⟩
  | cons i rest ih =>
    simp only [collectDeposits, playerAt, wp_bind, wp_get]
    cases globals.players[i]?.join with
    | none => exact wp_deref_none.mpr trivial
    | some player =>
      simp only [wp_deref_some, wp_issue]
      refine ⟨trivial, fun msg => ?_⟩
      cases msg with
      | none => exact fun h => absurd h eio_error
      | some msg =>
        simp only [wp_ite, wp_bind, wp_issue, wp_pure]
        refine ⟨fun _ => ⟨trivial, fun _ h => absurd h eio_error⟩, fun _ => ?_⟩
        refine wp_mono ?_ (decodeDeposit_spec msg)
        rintro ⟨ret, collected'⟩ last _ ⟨rfl, hdecoded⟩
        refine ⟨fun hret h => absurd h hret, fun hret => ?_⟩
        obtain ⟨hfees, hamounts⟩ := hdecoded (not_not.mp hret)
        refine wp_mono ?_ ih
        rintro ⟨ret, collected''⟩ last deposits' hrest hret
        obtain ⟨amounts, hdeposits, hlength, hcovered, hcollected⟩ := hrest hret
        refine ⟨DepositAndInput.depositAmount msg :: amounts, ?_, ?_, ?_, ?_⟩
        · rw [hdeposits]
          exact List.append_assoc deposits [DepositAndInput.depositAmount msg] amounts
        · rw [List.length_cons, List.length_cons, hlength]
        · exact List.forall_mem_cons.mpr ⟨hfees, hcovered⟩
        · rw [hcollected, hamounts, List.append_assoc]
          rfl

theorem allocateOutputs_spec (count : Nat) :
    wp (ledger build) (fun _ _ deposits' => deposits' = deposits) (allocateOutputs count) globals
      deposits := by
  induction count with
  | zero => exact rfl
  | succ count ih =>
    simp only [allocateOutputs, wp_bind, wp_issue]
    refine ⟨trivial, fun address => ?_⟩
    cases address with
    | none => exact rfl
    | some address =>
      simp only [wp_bind, wp_pure]
      exact ih

theorem freeAll_spec (buffers : List Buffer) :
    wp (ledger build) (fun _ _ deposits' => deposits' = deposits) (freeAll buffers) globals
      deposits := by
  induction buffers with
  | nil => exact rfl
  | cons buffer rest ih =>
    simp only [freeAll, wp_bind, wp_issue]
    exact ⟨trivial, fun _ => ih⟩

theorem evaluateFunctionality_spec (hints : CInts build) (stakes : List Nat) :
    wp (ledger build) (fun evaluation _ deposits' => deposits' = deposits ∧ (evaluation.ret = 0 →
        evaluation.payouts.length = build.numPlayers ∧
        evaluation.payouts.sum = stakes.sum % 2 ^ 64))
      (evaluateFunctionality build.numPlayers stakes) globals deposits := by
  simp only [evaluateFunctionality, wp_bind, wp_issue]
  refine ⟨trivial, fun random => ?_⟩
  cases random with
  | none => exact ⟨rfl, fun h => absurd h efault_error⟩
  | some random =>
    rw [wp_bind]
    refine wp_mono ?_ (allocateOutputs_spec _)
    rintro outputs _ _ rfl
    simp only [wp_ite, wp_bind, wp_pure]
    constructor
    · intro _
      refine wp_mono ?_ (freeAll_spec _)
      rintro _ _ _ rfl
      exact ⟨rfl, fun h => absurd h enomem_error⟩
    · intro _
      have hwinner : leValue random.val % build.numPlayers < build.numPlayers :=
        Nat.mod_lt _ hints.players
      have hlt := hints.players_lt
      refine ⟨trivial, fun _ => ⟨by simp, sum_drawPayout hwinner (by omega) ?_⟩⟩
      exact Nat.mod_lt _ (by decide)

theorem settle_spec (hints : CInts build) {context : Pointer}
    {collateralTransaction merklePaths : Bytes} {memo : FixedBytes 512} {collateral : Nat}
    {amounts : List Nat} (hcollateral : build.minerFeePerParty ≤ collateral)
    (hlength : amounts.length = build.numPlayers)
    (hfees : ∀ amount ∈ amounts, build.minerFeePerParty + build.operatorFeePerPlayer ≤ amount)
    (hcollected : collected.depositAmounts = collateral :: amounts.map
      (· - (build.minerFeePerParty + build.operatorFeePerPlayer))) :
    wp (ledger build) (fun _ _ _ => True)
      (settle build context collateralTransaction merklePaths memo collected) globals
      (collateral :: amounts) := by
  simp only [settle, wp_bind, hcollected, List.tail_cons]
  refine wp_mono ?_ (evaluateFunctionality_spec hints _)
  rintro evaluation last _ ⟨rfl, hpayouts⟩
  simp only [wp_ite, wp_bind, wp_pure]
  refine ⟨fun _ => trivial, fun hret => ?_⟩
  obtain ⟨hcount, hsum⟩ := hpayouts (not_not.mp hret)
  simp only [issueSettlement, wp_bind, wp_issue, hcollected, List.headD_cons, wp_modify]
  refine ⟨⟨collateral, amounts, rfl, .of_sum hlength hcount hcollateral hfees hsum⟩, ?_⟩
  intro settlement
  cases settlement with
  | none => trivial
  | some settlement =>
    simp only [wp_bind, wp_issue]
    refine ⟨trivial, fun hashes => ?_⟩
    have hsend (sighash txid : Blocks.Digest) (outputs transactions : List Bytes) :
        (sendClearContract sighash txid outputs transactions (List.range build.numPlayers)).Within
          CreatesNothing fun _ => True :=
      sendClearContract_within createsNothing (fun _ _ => trivial) _ _ _ _ _
    have houtput (transactions : List Bytes) :
        (outputDeposits context transactions).Within CreatesNothing fun _ => True :=
      outputDeposits_within (fun _ _ => trivial) _ _
    refine wp_createsNothing (hsend _ _ _ _) trivial fun ret last deposits => ?_
    simp only [wp_ite, wp_bind, wp_pure]
    refine ⟨fun _ => trivial, fun _ => ?_⟩
    refine wp_createsNothing (houtput _) trivial fun ret last deposits => ?_
    refine ⟨fun _ => trivial, fun _ => ?_⟩
    have hsign (advices : List Pointer) (sighash : Blocks.Digest) :
        (signSettlement advices sighash).Within CreatesNothing fun _ => True :=
      signSettlement_within createsNothing (fun _ _ _ => trivial) (fun _ _ _ => trivial) _ _
    exact wp_createsNothing (hsign _ _) trivial fun _ _ _ => trivial

/-- From the operator's own amount to the settlement. -/
theorem clearContract_spec (hints : CInts build) {context : Pointer}
    {payoutAddress collateralTransaction merklePaths : Bytes} :
    wp (ledger build) (fun _ _ _ => True)
      (clearContract build context payoutAddress collateralTransaction merklePaths) globals [] := by
  simp only [clearContract, wp_bind, wp_issue]
  refine ⟨trivial, fun memo => ⟨trivial, fun address => ?_⟩⟩
  cases address with
  | none => trivial
  | some address =>
    simp only [wp_bind, wp_get]
    cases globals.depositWallet with
    | none => exact wp_deref_none.mpr trivial
    | some depositWallet =>
      simp only [wp_deref_some, wp_issue]
      refine ⟨trivial, fun advice => ?_⟩
      cases advice with
      | none => trivial
      | some advice =>
        simp only [wp_bind, wp_issue]
        refine ⟨trivial, fun transaction => ?_⟩
        cases transaction with
        | none => trivial
        | some transaction =>
          simp only [wp_bind, wp_issue, wp_ite, wp_pure]
          refine ⟨trivial, fun collateral => ⟨fun _ => trivial, fun hcollateral => ?_⟩⟩
          refine wp_mono ?_ (collectDeposits_spec _)
          rintro ⟨ret, collected⟩ last deposits hcollected
          refine ⟨fun _ => trivial, fun hret => ?_⟩
          obtain ⟨amounts, rfl, hlength, hfees, hamounts⟩ := hcollected (not_not.mp hret)
          rw [List.length_range] at hlength
          exact settle_spec hints (by omega) hlength hfees hamounts

theorem ecallClearContractImpl_spec (hints : CInts build) {context : Pointer}
    {payoutAddress collateralTransaction merklePaths : Bytes} :
    wp (ledger build) (fun _ _ _ => True)
      (ecallClearContractImpl build context payoutAddress collateralTransaction merklePaths)
      globals [] := by
  simp only [ecallClearContractImpl, wp_bind]
  refine wp_mono ?_ (clearContract_spec hints)
  intro collected last deposits _
  have hobjects (indices : List Nat) : (releaseObjects collected.2 indices).Within CreatesNothing
      fun _ => True := (releaseObjects_within _ _).mono createsNothing
  have hbuffers (indices : List Nat) : (freeBuffers collected.2 indices).Within CreatesNothing
      fun _ => True := (freeBuffers_within _ _).mono createsNothing
  refine wp_createsNothing (hobjects _) trivial fun _ last deposits => ?_
  refine wp_createsNothing (hbuffers _) trivial fun _ last deposits => ?_
  simp only [wp_ite, wp_bind, wp_get, wp_pure]
  refine ⟨fun _ => ?_, fun _ => trivial⟩
  cases last.unauthorizedSettlement with
  | none => trivial
  | some settlement =>
    simp only [wp_bind, wp_issue, wp_modify, wp_pure]
    exact ⟨trivial, fun _ => trivial⟩

/-- In every run of the clearing, what is handed to `zcash_create_transaction` pays out the
deposits but for the miner's fee of every party. -/
theorem money_conserved (build : Build) (hints : CInts build) {globals last : Globals}
    {events before after : List (Event (Call Callback))} {result : Option Int32}
    {context : Pointer} {payoutAddress collateralTransaction merklePaths : Bytes}
    (hrun : Exec (ecallClearContractImpl build context payoutAddress collateralTransaction
      merklePaths) globals events last result)
    {inputs payoutAddresses advices : List Pointer} {payouts : List Nat} {paths : Bytes}
    {memo : FixedBytes 512} (hcreate : events = before ++ .issued
      (.zcashCreateTransaction inputs payouts payoutAddresses advices paths memo) :: after) :
    ∃ collateral amounts, before.filterMap deposited = collateral :: amounts ∧
      Conserved build collateral amounts payouts := by
  have haccepts := hrun.accepts (ecallClearContractImpl_spec hints)
  rw [hcreate] at haccepts
  obtain ⟨_, hsafe⟩ := haccepts.issued
  rwa [foldl_ledger, List.nil_append] at hsafe

end Run

section Examples
open Blocks (zeroBuild)

def creates : Event (Call Callback) → Bool
  | .issued (.zcashCreateTransaction _ _ _ _ _ _) => true
  | _ => false

/-- Three players have deposited, and the contract is cleared. -/
def clearPlay {α : Type} (p : Code α) : List (Event (Call Callback)) × Globals × Option α :=
  play (obligingHost (fun _ channel => some (contractMessages 200 channel)) fun _ => 0) 0 p
    { DepositDecoding.connected with depositWallet := some ⟨1, 1, 1⟩ }

theorem clearPlay_run {α : Type} (p : Code α) :
    Exec p { DepositDecoding.connected with depositWallet := some ⟨1, 1, 1⟩ } (clearPlay p).1
      (clearPlay p).2.1 (clearPlay p).2.2 :=
  exec_play _ 0 p _

theorem money_conserved_played : ∃ payouts collateral amounts,
    collateral :: amounts = [1000000, 1000000, 1000000, 1000000] ∧
      Conserved zeroBuild collateral amounts payouts := by
  let events := (clearPlay (ecallClearContractImpl zeroBuild 0 [1] [2] [3])).1
  have hints : CInts zeroBuild := ⟨by decide, by decide, by decide, by decide, by decide⟩
  have hdeposits : (events.takeWhile fun event => !creates event).filterMap deposited =
      [1000000, 1000000, 1000000, 1000000] := by decide +kernel
  have hcreates : (events.dropWhile fun event => !creates event).head?.any creates = true := by
    decide +kernel
  have hsplit := (List.takeWhile_append_dropWhile (p := fun event => !creates event)
    (l := events)).symm
  cases hrest : events.dropWhile fun event => !creates event with
  | nil =>
    rw [hrest] at hcreates
    cases hcreates
  | cons event after =>
    rw [hrest] at hcreates hsplit
    cases event with
    | answered c answer => cases hcreates
    | issued c =>
      cases c with
      | zcashCreateTransaction inputs payouts payoutAddresses advices paths memo =>
        obtain ⟨collateral, amounts, hamounts, hconserved⟩ :=
          money_conserved zeroBuild hints (clearPlay_run _) hsplit
        exact ⟨payouts, collateral, amounts, hamounts.symm.trans hdeposits, hconserved⟩
      | _ => cases hcreates

end Examples

end Auntie.Guarantees.MoneyConservation

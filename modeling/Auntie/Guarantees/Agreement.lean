import Auntie.Guarantees.InformedSignature
import Auntie.Guarantees.Lottery
import Auntie.Guarantees.SettlementOffer
import Auntie.Interaction.Interleaving

/-!
# Agreement when the contract is finalized

The operator's enclave and the enclaves of the players move on their own, and the host decides
who goes next. What they agree on goes through clear-contract messages, stored globals and
signatures: a settlement that is handed out was signed by every player, and each of them had
shown the deposit transactions it was created from.
-/

namespace Auntie.Guarantees.Agreement
open Auntie.Source Auntie.Interaction
open Blocks (Digest)
open ClearContractDecoding (shownIn shownIn_append)
open SettlementOffer (Contribution Offer Cleared)

/-- The enclaves of one contract: the operator's is the hub, the player in slot `i` of its table
is peer `i`. -/
abbrev JointRun (dep : Deployment) :=
  Interleaving (Operator.enclave dep) (Operator.initial dep) (Player.enclave dep) Player.initial
    (Fin dep.build.numPlayers)

/-- Part of the history of a contract. -/
abbrev History (dep : Deployment) :=
  List (Happening (Event (Call Operator.Callback)) (Event (Call Player.Callback))
    (Fin dep.build.numPlayers))

variable {dep : Deployment}

section Assumptions
variable (run : JointRun dep)

/-- The channels deliver nothing but what the other end has sent. -/
structure Delivers : Prop where
  toOperator : ∀ step ∈ run.hubSteps, ∀ (i : Fin dep.build.numPlayers) player msg,
    step.before.players[i.val]?.join = some player →
    .answered (.auntieMsgReceive player.channel) (some msg) ∈ step.events →
    ∃ channel, (msg.toMessage, channel) ∈ sentIn (eventsOf (run.peerSteps i))
  toPlayer : ∀ i, ∀ step ∈ run.peerSteps i, ∀ operator msg,
    step.before.operator = some operator →
    .answered (.auntieMsgReceive operator.channel) (some msg) ∈ step.events →
    ∃ channel, (msg.toMessage, channel) ∈ sentIn (eventsOf run.hubSteps)

/-- A settlement is authorized only if the players whose advices it was created with have signed
its hash. -/
def Unforgeable : Prop :=
  ∀ past future unauthorized signatures authorized,
    run.history = past ++ .hub (.answered (.zcashAuthorizeTransaction unauthorized signatures)
      (some authorized)) :: future →
    ∀ inputs payouts payoutAddresses advices merklePaths memo sighash txid,
      .hub (.answered (.zcashCreateTransaction inputs payouts payoutAddresses advices merklePaths
        memo) (some unauthorized)) ∈ past →
      .hub (.answered (.zcashHashTransaction unauthorized) (sighash, txid)) ∈ past →
      ∀ advice ∈ advices, ∀ raw : FixedBytes 128,
        .hub (.answered (.zcashImportAdvice raw.val) (some advice)) ∈ past →
        ∀ i own, .peer i (.answered (.zcashExportAdviceImpl own) raw) ∈ run.history →
          ∃ key signed, .peer i (.issued (.zcashSignTransaction key signed sighash)) ∈ past

/-- Each of these the player of that slot has been given to deposit. -/
structure Deposited (depositTransactions : List Bytes) : Prop where
  count : depositTransactions.length = dep.build.numPlayers
  deposited : ∀ i : Fin dep.build.numPlayers, ∃ step ∈ run.peerSteps i,
    ∃ depositTransaction input,
      step.op = Player.Ecall.ecallDepositAndInput depositTransaction input ∧
      depositTransactions[i.val]? = some depositTransaction

/-- The operator's deposit transaction, then those of the players. -/
def Gathered (depositTransactions : List Bytes) : Prop :=
  ∃ collateralTransaction playersTransactions,
    depositTransactions = collateralTransaction :: playersTransactions ∧
    (∃ clear ∈ run.hubSteps, ∃ context payoutAddress merklePaths, clear.op =
      Operator.Ecall.ecallClearContract context payoutAddress collateralTransaction merklePaths) ∧
    Deposited run playersTransactions

/-- A call has created a settlement from what its messages carry. -/
def Offered (offer : Offer) : Prop :=
  ∃ clear ∈ run.hubSteps, ∃ context payoutAddress merklePaths,
    clear.op = Operator.Ecall.ecallClearContract context payoutAddress offer.collateralTransaction
      merklePaths ∧
    List.Forall₂ (Contribution.From clear.before.players clear.events)
      (List.range dep.build.numPlayers) offer.contributions ∧
    offer.Created dep.build merklePaths clear.events

/-- What the players deposit fits in 32 bits. -/
def DepositsFit : Prop :=
  ∀ i, ∀ step ∈ run.peerSteps i, ∀ depositTransaction input,
    step.op = Player.Ecall.ecallDepositAndInput depositTransaction input →
    195 + depositTransaction.length + input.length < 2 ^ 32

/-- The messages fit in the enclaves, whose heaps `config.xml` limits to 256 and 16 MiB: their
lengths are kept in 32 bits. -/
structure Fits : Prop where
  deposits : DepositsFit run
  offers : ∀ offer, Offered run offer →
    ClearContract.sizeof dep.build.numPlayers + Operator.loserMessage.length +
      offer.depositTransactions.flatten.length < 2 ^ 32

end Assumptions

section Conclusions

/-- The settlement handed out is the authorized form of one that was created with these deposits
as inputs, in this order, and has this hash. -/
def BuiltFrom (past : History dep) (settlement : Bytes) (sighash : Digest)
    (depositTransactions : List Bytes) : Prop :=
  ∃ (inputs : List Pointer) (payouts : List Nat) (payoutAddresses advices : List Pointer)
    (merklePaths : Bytes) (memo : FixedBytes 512) (unauthorized : Pointer) (txid : Digest)
    (signatures : List Pointer) (authorized : Pointer) (length : Nat) (raw : FixedBytes length),
    List.Forall₂ (fun depositTransaction input =>
      .hub (.answered (.zcashImportTransaction depositTransaction) (some input)) ∈ past)
      depositTransactions inputs ∧
    .hub (.answered (.zcashCreateTransaction inputs payouts payoutAddresses advices merklePaths
      memo) (some unauthorized)) ∈ past ∧
    .hub (.answered (.zcashHashTransaction unauthorized) (sighash, txid)) ∈ past ∧
    .hub (.answered (.zcashAuthorizeTransaction unauthorized signatures) (some authorized)) ∈
      past ∧
    .hub (.answered (.zcashExportTransactionImpl authorized length) raw) ∈ past ∧
    raw.val = settlement

/-- The player has confirmed with a signature of this hash, and has shown these deposits, and no
others, before. -/
def Confirmed (run : JointRun dep) (past : History dep) (i : Fin dep.build.numPlayers)
    (sighash : Digest) (depositTransactions : List Bytes) : Prop :=
  ∃ confirm ∈ run.peerSteps i, ∃ key advice before after,
    confirm.op = Player.Ecall.ecallConfirmDeposits ∧
    .issued (.zcashSignTransaction key advice sighash) ∈ confirm.events ∧
    peerEvents i past = before ++ .issued (.zcashSignTransaction key advice sighash) :: after ∧
    shownIn before = depositTransactions

end Conclusions

section Outputs
open Operator

theorem conditionalMove_length {out input : Bytes} {length : Nat} (move : UInt32)
    (hinput : length ≤ input.length) (hout : length ≤ out.length) :
    (conditionalMove out input length move).length = out.length := by
  simp only [conditionalMove, List.length_append, List.length_zipWith, List.length_take,
    List.length_drop]
  omega

/-- The two messages are equally long, so that every output is. -/
theorem evaluateFunctionality_outputs (numPlayers : Nat) (deposits : List Nat)
    (globals : Globals) :
    wp tape (fun evaluation _ _ => ∀ output ∈ evaluation.outputs,
        output.contents.length = loserMessage.length)
      (evaluateFunctionality numPlayers deposits) globals [] := by
  rw [evaluateFunctionality, wp_bind, wp_tape_issue]
  intro random
  cases random with
  | none => exact List.forall_mem_nil _
  | some random =>
    dsimp only
    rw [wp_bind]
    refine wp_mono ?_ (Lottery.allocateOutputs_spec numPlayers)
    rintro outputs last events ⟨-, -, houtputs⟩
    have hlengths : ∀ output ∈ outputs, output.contents.length = loserMessage.length :=
      fun output houtput => congrArg List.length (houtputs output houtput)
    rw [wp_ite]
    constructor
    · intro _
      have hfree : (freeAll outputs).Within Call.Internal fun _ : Globals => True :=
        freeAll_within outputs
      rw [wp_bind]
      have hknows : ∀ first later : List (Event (Call Callback)),
          (fun _ => True) first → (fun _ => True) (first ++ later) := fun _ _ _ => trivial
      exact hfree.tape hknows trivial trivial fun _ _ _ _ _ => hlengths
    · intro _ output houtput
      obtain ⟨i, hi, rfl⟩ := List.mem_mapIdx.mp houtput
      have hmessage : (outputs[i]).contents = loserMessage := houtputs _ (List.getElem_mem hi)
      have hlength : winnerMessage.length ≤ loserMessage.length := by decide
      rw [drawOutput, hmessage, conditionalMove_length _ le_rfl hlength]

theorem output_length {build : Build} {offer : Offer} (h : offer.Evaluated build) (i : Nat) :
    (offer.outputs.getD i []).length ≤ loserMessage.length := by
  obtain ⟨-, globals, events, last, hexec⟩ := h
  have houtputs := hexec.taped (evaluateFunctionality_outputs _ _ globals)
  rw [List.getD_eq_getElem?_getD, Offer.outputs, List.getElem?_map]
  cases houtput : offer.evaluation.outputs[i]? with
  | none => exact Nat.zero_le _
  | some output => exact (houtputs output (List.mem_of_getElem? houtput)).le

end Outputs

section Steps

/-- A step whose messages are known to have been sent. -/
theorem sent_in_step {Callback σ : Type} {comp : Component (Call Callback) σ}
    {steps : List (Step comp)} {msg : Message} {channel : ChannelRef}
    (h : (msg, channel) ∈ sentIn (eventsOf steps)) :
    ∃ step ∈ steps, (msg, channel) ∈ sentIn step.events := by
  obtain ⟨step, hstep, hissued⟩ := List.mem_flatMap.mp (mem_sentIn.mp h)
  exact ⟨step, hstep, mem_sentIn.mpr hissued⟩

theorem mem_eventsOf {I : Interface} {σ : Type} {comp : Component I σ} {steps : List (Step comp)}
    {step : Step comp} (hstep : step ∈ steps) {event : Event I} (hevent : event ∈ step.events) :
    event ∈ eventsOf steps :=
  List.mem_flatMap.mpr ⟨step, hstep, hevent⟩

end Steps

section Deposits
variable {run : JointRun dep} (hdelivers : Delivers run)
include hdelivers

/-- What the operator decodes for a slot is the deposit of the player of that slot, with the
advice its enclave has exported. -/
theorem contributed (hdeposits : DepositsFit run) {clear : Step (Operator.enclave dep)}
    (hclear : clear ∈ run.hubSteps) {i : Fin dep.build.numPlayers} {contribution : Contribution}
    (hfrom : contribution.From clear.before.players clear.events i) :
    ∃ step ∈ run.peerSteps i,
      (∃ input, step.op =
        Player.Ecall.ecallDepositAndInput contribution.depositTransaction input) ∧
      ∃ (own : Pointer) (raw : FixedBytes 128),
        DepositAndInput.advice contribution.msg = raw.val ∧
        .answered (.zcashExportAdviceImpl own) raw ∈ step.events := by
  obtain ⟨player, hplayer, hreceived⟩ := hfrom.received
  obtain ⟨channel, hsent⟩ := hdelivers.toOperator clear hclear i player contribution.msg hplayer
    hreceived
  obtain ⟨step, hstep, hsent⟩ := sent_in_step hsent
  have valid := (run.peerTrace i).valid_of_mem hstep
  obtain ⟨depositTransaction, input, hop, deposit, rfl, rfl, hmsg, ⟨own, hexported⟩, -⟩ :=
    InformedSignature.deposits_of_sent valid hsent hfrom.msgType
  have hsize := hdeposits i step hstep _ _ hop
  rw [← deposit.payload_length] at hsize
  have hpayload : contribution.msg.payload = deposit.payload := by
    rw [hmsg, DepositDecoding.Deposit.message, Message.ofPayload_payload hsize]
  refine ⟨step, hstep, ⟨deposit.input, ?_⟩, own, deposit.advice,
    DepositDecoding.advice_eq hpayload, hexported⟩
  rw [hop, Contribution.depositTransaction, DepositDecoding.depositTransaction_eq hpayload]

/-- The deposits of an offer are those that the parties have been given. -/
theorem Offered.gathered {offer : Offer} (h : Offered run offer) (hdeposits : DepositsFit run) :
    Gathered run offer.depositTransactions := by
  obtain ⟨clear, hclear, context, payoutAddress, merklePaths, hop, hcontributed, -⟩ := h
  have hcount := hcontributed.length_eq
  rw [List.length_range] at hcount
  refine ⟨_, _, rfl, ⟨clear, hclear, context, payoutAddress, merklePaths, hop⟩, ?_, fun i => ?_⟩
  · rw [List.length_map, ← hcount]
  · have hi : i.val < offer.contributions.length := by omega
    have hfrom := hcontributed.get (by simp) hi
    simp only [List.get_eq_getElem, List.getElem_range] at hfrom
    obtain ⟨step, hstep, ⟨input, hop⟩, -⟩ := contributed hdelivers hdeposits hclear hfrom
    refine ⟨step, hstep, _, input, hop, ?_⟩
    rw [List.getElem?_map, List.getElem?_eq_getElem hi, Option.map_some]

omit hdelivers in
/-- A call that has cleared the contract has made its offer. -/
theorem offered_of_cleared {clear : Step (Operator.enclave dep)} (hclear : clear ∈ run.hubSteps)
    {offer : Offer} (hoffer : Cleared clear offer) : Offered run offer := by
  obtain ⟨context, payoutAddress, merklePaths, hop, hoffers⟩ := hoffer.offers
  exact ⟨clear, hclear, context, payoutAddress, merklePaths, hop, hoffers.contributed,
    hoffers.created⟩

variable (hfits : Fits run)
include hfits

/-- A player that signs has signed the hash of the one offer, and has shown its deposits. -/
theorem signed_offer {clear : Step (Operator.enclave dep)} (hclear : clear ∈ run.hubSteps)
    {offer : Offer} (hoffer : Cleared clear offer) {i : Fin dep.build.numPlayers}
    {earlier later : List (Step (Player.enclave dep))} {step : Step (Player.enclave dep)}
    (hsplit : run.peerSteps i = earlier ++ step :: later) {key advice : Pointer}
    {sighash : Digest} (hsigns : .issued (.zcashSignTransaction key advice sighash) ∈ step.events) :
    step.op = .ecallConfirmDeposits ∧ shownIn step.events = [] ∧ sighash = offer.sighash ∧
      shownIn (eventsOf earlier) = offer.depositTransactions := by
  obtain ⟨hop, hquiet, get, hget, operator, msg, hkeeps⟩ :=
    InformedSignature.signed_informed (run.peerTrace i) hsplit hsigns
  have hmem : get ∈ run.peerSteps i := by
    rw [hsplit]
    exact List.mem_append_left _ hget
  obtain ⟨channel, hsent⟩ := hdelivers.toPlayer i get hmem operator msg hkeeps.connected
    hkeeps.arrived
  obtain ⟨other, hother, hsent⟩ := sent_in_step hsent
  obtain ⟨slot, player, -, -, -, hmsg⟩ :=
    SettlementOffer.sent_offer run.hubTrace hclear hother hoffer hsent hkeeps.msgType
  have hoffered := offered_of_cleared hclear hoffer
  have hsize := hfits.offers offer hoffered
  obtain ⟨_, _, hdeposits, -, hcount, -⟩ := hoffered.gathered hdelivers hfits.deposits
  have hcount : offer.depositTransactions.length = dep.build.numPlayers + 1 := by
    rw [hdeposits, List.length_cons, hcount]
  obtain ⟨_, _, _, -, hoffers⟩ := hoffer.offers
  have houtput := output_length hoffers.evaluated slot
  have hpayload : msg.payload = ClearContract.encode offer.sighash offer.txid
      (offer.outputs.getD slot []) offer.depositTransactions := by
    rw [hmsg, Message.ofPayload_payload]
    rw [ClearContractDecoding.encode_length, List.flatten_cons, List.length_append, hcount]
    rw [ClearContract.sizeof] at hsize
    omega
  have hcontents := ClearContractDecoding.contents_of_encode hpayload hcount
  rw [ClearContractDecoding.contents, List.cons_append, List.cons.injEq] at hcontents
  refine ⟨hop, hquiet, ?_, ?_⟩
  · rw [hkeeps.settlementSighash, ClearContractDecoding.settlementSighash_eq hpayload]
  · rw [hkeeps.shown, hcontents.2]

end Deposits

section Finalization
variable {run : JointRun dep}

/-- What an offer was created from, as the history has it. -/
theorem built_from {past : History dep} {clear : Step (Operator.enclave dep)} {offer : Offer}
    (hoffer : Cleared clear offer) (hpast : ∀ event ∈ clear.events, .hub event ∈ past)
    {signatures : List Pointer} {authorized : Pointer} {length : Nat} {raw : FixedBytes length}
    (hauthorized : .hub (.answered (.zcashAuthorizeTransaction offer.settlement signatures)
      (some authorized)) ∈ past)
    (hexported : .hub (.answered (.zcashExportTransactionImpl authorized length) raw) ∈ past) :
    BuiltFrom past raw.val offer.sighash offer.depositTransactions := by
  obtain ⟨_, _, merklePaths, -, hoffers⟩ := hoffer.offers
  obtain ⟨transaction, payoutAddress, advice, collateral, memo, himported, hcreated⟩ :=
    hoffers.created
  refine ⟨_, _, _, _, merklePaths, memo, offer.settlement, offer.txid, signatures, authorized,
    length, raw, .cons (hpast _ himported) ?_, hpast _ hcreated, hpast _ hoffers.hashed,
    hauthorized, hexported, rfl⟩
  rw [List.forall₂_map_left_iff, List.forall₂_map_right_iff, List.forall₂_same]
  intro contribution hmem
  obtain ⟨i, hi, rfl⟩ := List.getElem_of_mem hmem
  have hcount := hoffers.contributed.length_eq
  have hfrom := hoffers.contributed.get (by omega) hi
  exact hpast _ hfrom.transaction

/-- Under unforgeability every player has signed the hash of what was authorized. -/
theorem signed_in_past (hdelivers : Delivers run) (hunforgeable : Unforgeable run)
    (hfits : Fits run) {past future : History dep} {clear : Step (Operator.enclave dep)}
    (hclear : clear ∈ run.hubSteps) {offer : Offer} (hoffer : Cleared clear offer)
    (hpast : ∀ event ∈ clear.events, .hub event ∈ past)
    {signatures : List Pointer} {authorized : Pointer}
    (hauthorized : run.history = past ++ .hub (.answered
      (.zcashAuthorizeTransaction offer.settlement signatures) (some authorized)) :: future)
    (i : Fin dep.build.numPlayers) :
    ∃ key signed, .peer i (.issued (.zcashSignTransaction key signed offer.sighash)) ∈ past := by
  obtain ⟨_, _, merklePaths, -, hoffers⟩ := hoffer.offers
  obtain ⟨_, _, _, _, _, -, hcreated⟩ := hoffers.created
  have hcount := hoffers.contributed.length_eq
  rw [List.length_range] at hcount
  have hi : i.val < offer.contributions.length := by omega
  have hfrom := hoffers.contributed.get (by simp) hi
  simp only [List.get_eq_getElem, List.getElem_range] at hfrom
  obtain ⟨step, hstep, -, own, raw, hraw, hexported⟩ := contributed hdelivers hfits.deposits hclear hfrom
  have himported := hfrom.advice
  rw [hraw] at himported
  have hplayer : .peer i (.answered (.zcashExportAdviceImpl own) raw) ∈ run.history := by
    rw [← mem_peerEvents, run.peer_history]
    exact mem_eventsOf hstep hexported
  exact hunforgeable past future _ _ _ hauthorized _ _ _ _ _ _ _ _ (hpast _ hcreated)
    (hpast _ hoffers.hashed) _ (List.mem_cons_of_mem _ (List.mem_map_of_mem (List.getElem_mem hi)))
    raw (hpast _ himported) i own hplayer

/-- A settlement that is handed out was signed by every player in its confirmation, and every
player had shown before the deposits that the settlement was created from: byte for byte, the
operator's first, then those of the players in the order of their slots. -/
theorem finalized_in_agreement (dep : Deployment) (run : JointRun dep) (hdelivers : Delivers run)
    (hunforgeable : Unforgeable run) (hfits : Fits run) {past future : History dep}
    {context : Pointer} {settlement : Bytes}
    (hfinalized : run.history =
      past ++ .hub (.issued (.callback (.ocallFinalize context settlement))) :: future) :
    ∃ sighash depositTransactions, BuiltFrom past settlement sighash depositTransactions ∧
      Gathered run depositTransactions ∧
      ∀ i, Confirmed run past i sighash depositTransactions := by
  obtain ⟨earlier, step, later, mid, rest, hsteps, hevents, hdone⟩ := run.hub_at hfinalized
  obtain ⟨clear, hclear, offer, hoffer, authorized, signatures, length, raw, hauthorized,
    hexported, rfl⟩ := SettlementOffer.handed_out_offer run.hubTrace hsteps hevents
  have hmem : clear ∈ run.hubSteps := by
    rw [hsteps]
    exact List.mem_append_left _ hclear
  have hpast : ∀ event ∈ eventsOf earlier ++ mid, .hub event ∈ past := by
    intro event hevent
    rwa [← mem_hubEvents, hdone]
  have hoffered := offered_of_cleared hmem hoffer
  refine ⟨offer.sighash, offer.depositTransactions, ?_,
    hoffered.gathered hdelivers hfits.deposits, ?_⟩
  · refine built_from hoffer (fun event hevent => hpast _ ?_)
      (hpast _ (List.mem_append_right _ hauthorized)) (hpast _ (List.mem_append_right _ hexported))
    exact List.mem_append_left _ (mem_eventsOf hclear hevent)
  · intro i
    obtain ⟨mid', rest', rfl⟩ := List.append_of_mem hauthorized
    rw [← List.append_assoc] at hdone
    obtain ⟨past', between, rfl, hdone'⟩ := hubEvents_split hdone
    have hpast' : ∀ event ∈ clear.events, .hub event ∈ past' := by
      intro event hevent
      rw [← mem_hubEvents, hdone']
      exact List.mem_append_left _ (mem_eventsOf hclear hevent)
    rw [List.append_assoc, List.cons_append] at hfinalized
    obtain ⟨key, signed, hsigned⟩ :=
      signed_in_past hdelivers hunforgeable hfits hmem hoffer hpast' hfinalized i
    rw [← List.cons_append, ← List.append_assoc] at hfinalized
    obtain ⟨earlier', confirm, later', mid'', rest'', after, hsplit, hconfirm, hplayer⟩ :=
      run.peer_in hfinalized (List.mem_append_left _ hsigned)
    have hsigns : .issued (.zcashSignTransaction key signed offer.sighash) ∈ confirm.events := by
      rw [hconfirm]
      exact List.mem_append_right _ List.mem_cons_self
    obtain ⟨hop, hquiet, -, hshown⟩ := signed_offer hdelivers hfits hmem hoffer hsplit hsigns
    have hconfirmed : confirm ∈ run.peerSteps i := by
      rw [hsplit]
      exact List.mem_append_right _ List.mem_cons_self
    refine ⟨confirm, hconfirmed, key, signed, _, after, hop, hsigns, hplayer, ?_⟩
    rw [hconfirm, shownIn_append] at hquiet
    rw [shownIn_append, (List.append_eq_nil_iff.mp hquiet).1, List.append_nil, hshown]

end Finalization

section Examples

def agreedDeposits : List Bytes := [[2], [1], [1], [1]]

/-- What the operator sends to the players of the contract that `Operator.contractSteps` runs. -/
def agreedMessages (i : Fin zeroDeployment.build.numPlayers) (time : Nat) : ReceivedMessage :=
  if time < 80 then Player.contractMessages time
  else if i.val = 0 then
    (Message.ofPayload msgClearContract (ClearContract.encode (FixedBytes.zero 32)
      (FixedBytes.zero 32) Operator.winnerMessage agreedDeposits)).received (by decide)
      (by decide +kernel)
  else
    (Message.ofPayload msgClearContract (ClearContract.encode (FixedBytes.zero 32)
      (FixedBytes.zero 32) Operator.loserMessage agreedDeposits)).received (by decide)
      (by decide +kernel)

def agreedHost (i : Fin zeroDeployment.build.numPlayers) {β : Type} :
    Nat → Call Player.Callback β → Option β :=
  obligingHost (fun time _ => some (agreedMessages i time)) (fun _ => 0)

def agreedSteps (i : Fin zeroDeployment.build.numPlayers) :
    List (Step (Player.enclave zeroDeployment)) :=
  playRun (Player.enclave zeroDeployment) (agreedHost i) 0 Player.initial Player.contract

def agreedState (i : Fin zeroDeployment.build.numPlayers) : Player.Globals :=
  lastState (Player.enclave zeroDeployment) Player.initial (agreedSteps i)

theorem agreedSteps_run (i : Fin zeroDeployment.build.numPlayers) :
    Run (Player.enclave zeroDeployment) Player.initial (agreedSteps i) (agreedState i) := by
  have hfinished : ∀ i, (agreedSteps i).all fun step => step.result.isSome := by decide +kernel
  exact run_playRun (Player.enclave zeroDeployment) (agreedHost i) Player.initial Player.contract
    (hfinished i)

theorem eventsOf_take_drop {I : Interface} {σ : Type} {comp : Component I σ}
    (steps : List (Step comp)) (count : Nat) :
    eventsOf (steps.take count) ++ eventsOf (steps.drop count) = eventsOf steps := by
  rw [eventsOf, eventsOf, ← List.flatMap_append, List.take_append_drop]
  rfl

/-- The players deposit, the operator clears the contract, the players confirm. -/
def beforeFinalization : History zeroDeployment :=
  inTurn (List.finRange _) (fun i => eventsOf ((agreedSteps i).take 3)) ++
    (eventsOf (Operator.contractSteps.take 5)).map .hub ++
      inTurn (List.finRange _) fun i => eventsOf ((agreedSteps i).drop 3)

def agreedRun : JointRun zeroDeployment where
  history := beforeFinalization ++ (eventsOf (Operator.contractSteps.drop 5)).map .hub
  hubSteps := Operator.contractSteps
  hubState := Operator.contractState
  hubTrace := .resting Operator.contractSteps_run
  peerSteps := agreedSteps
  peerState := agreedState
  peerTrace i := .resting (agreedSteps_run i)
  hub_history := by
    rw [beforeFinalization, hubEvents_append, hubEvents_append, hubEvents_append, hubEvents_hub,
      hubEvents_hub, hubEvents_inTurn, hubEvents_inTurn, List.nil_append, List.append_nil,
      eventsOf_take_drop]
  peer_history i := by
    rw [beforeFinalization, peerEvents_append, peerEvents_append, peerEvents_append,
      peerEvents_hub, peerEvents_hub, peerEvents_inTurn (List.nodup_finRange _) (List.mem_finRange i),
      peerEvents_inTurn (List.nodup_finRange _) (List.mem_finRange i), List.append_nil,
      List.append_nil, eventsOf_take_drop]

theorem agreedRun_delivers : Delivers agreedRun := by
  constructor
  · intro step hstep i player msg hplayer hreceived
    have hsent : Operator.contractSteps.all (fun step => (List.finRange 3).all fun i =>
        (arrivedIn step.events).all fun (channel, msg) =>
          step.before.players[i.val]?.join.map Operator.Player.channel ≠ some channel ||
            ((sentIn (eventsOf (agreedSteps i))).map Prod.fst).contains msg.toMessage) = true := by
      decide +kernel
    have hsent := List.all_eq_true.mp (List.all_eq_true.mp (List.all_eq_true.mp hsent step hstep) i
      (List.mem_finRange i)) _ (mem_arrivedIn.mpr hreceived)
    simp only [hplayer, Option.map_some, ne_eq, not_true_eq_false, decide_false, Bool.false_or,
      List.contains_iff_mem, List.mem_map] at hsent
    obtain ⟨⟨_, channel⟩, hmem, rfl⟩ := hsent
    exact ⟨channel, hmem⟩
  · intro i step hstep operator msg hoperator hreceived
    have hsent : ∀ i, (agreedSteps i).all (fun step =>
        (arrivedIn step.events).all fun (_, msg) => step.before.operator.isNone ||
            ((sentIn (eventsOf Operator.contractSteps)).map Prod.fst).contains msg.toMessage) =
        true := by
      decide +kernel
    have hsent := List.all_eq_true.mp (List.all_eq_true.mp (hsent i) step hstep) _
      (mem_arrivedIn.mpr hreceived)
    simp only [hoperator, Option.isNone_some, Bool.false_or, List.contains_iff_mem,
      List.mem_map] at hsent
    obtain ⟨⟨_, channel⟩, hmem, rfl⟩ := hsent
    exact ⟨channel, hmem⟩

theorem agreedRun_hub : hubEvents agreedRun.history = eventsOf Operator.contractSteps :=
  agreedRun.hub_history

/-- What is signed in a list of events. -/
def signedIn (events : List (Event (Call Player.Callback))) : List (Pointer × Pointer × Digest) :=
  events.flatMap fun
    | .issued (.zcashSignTransaction key advice sighash) => [(key, advice, sighash)]
    | _ => []

theorem mem_signedIn {events : List (Event (Call Player.Callback))} {key advice : Pointer}
    {sighash : Digest} (h : (key, advice, sighash) ∈ signedIn events) :
    .issued (.zcashSignTransaction key advice sighash) ∈ events := by
  obtain ⟨event, hevent, hsigned⟩ := List.mem_flatMap.mp h
  cases event with
  | answered c answer => cases hsigned
  | issued c =>
    cases c with
    | zcashSignTransaction =>
      cases List.mem_singleton.mp hsigned
      exact hevent
    | _ => cases hsigned

def authorizes : Event (Call Operator.Callback) → Bool
  | .answered (.zcashAuthorizeTransaction _ _) _ => true
  | _ => false

/-- Nothing is authorized before the players have confirmed. -/
theorem authorized_after {past future : History zeroDeployment} {unauthorized : Pointer}
    {signatures : List Pointer} {authorized : Option Pointer}
    (h : agreedRun.history = past ++ .hub (.answered
      (.zcashAuthorizeTransaction unauthorized signatures) authorized) :: future) :
    ∃ more, past = beforeFinalization ++ more := by
  rcases List.append_eq_append_iff.mp h with ⟨more, hpast, -⟩ | ⟨rest, hbefore, hrest⟩
  · exact ⟨more, hpast⟩
  · cases rest with
    | nil => exact ⟨[], by rw [hbefore, List.append_nil, List.append_nil]⟩
    | cons happening rest =>
      obtain ⟨rfl, -⟩ := List.cons.inj hrest
      have hnone : (eventsOf (Operator.contractSteps.take 5)).any authorizes = false := by
        decide +kernel
      have hmem : .answered (.zcashAuthorizeTransaction unauthorized signatures) authorized ∈
          eventsOf (Operator.contractSteps.take 5) := by
        have hhub : hubEvents beforeFinalization = eventsOf (Operator.contractSteps.take 5) := by
          rw [beforeFinalization, hubEvents_append, hubEvents_append, hubEvents_hub,
            hubEvents_inTurn, hubEvents_inTurn, List.nil_append, List.append_nil]
        rw [← hhub, mem_hubEvents, hbefore]
        exact List.mem_append_right _ List.mem_cons_self
      exact absurd (List.any_eq_true.mpr ⟨_, hmem, rfl⟩) (by rw [hnone]; decide)

theorem agreedRun_unforgeable : Unforgeable agreedRun := by
  intro past future unauthorized signatures authorized hauthorized inputs payouts payoutAddresses
    advices merklePaths memo sighash txid hcreated hhashed advice hadvice raw himported i own
    hexported
  obtain ⟨more, rfl⟩ := authorized_after hauthorized
  have hsigned : ∀ i, (signedIn (eventsOf ((agreedSteps i).drop 3))).contains
      (1, 1, FixedBytes.zero 32) = true := by
    decide +kernel
  have hsighash : sighash = FixedBytes.zero 32 := by
    have hmem : .answered (.zcashHashTransaction unauthorized) (sighash, txid) ∈
        eventsOf Operator.contractSteps := by
      rw [← agreedRun_hub, mem_hubEvents, hauthorized]
      exact List.mem_append_left _ hhashed
    obtain ⟨step, hstep, hevent⟩ := List.mem_flatMap.mp hmem
    have hlog : .host (.answered (.zcashHashTransaction unauthorized) (sighash, txid)) ∈
        logOf Operator.contractSteps :=
      List.mem_flatMap.mpr ⟨step, hstep, by simp [Step.log, hevent]⟩
    obtain ⟨time, hanswer⟩ := playRun_answered hlog
    cases hanswer
    rfl
  refine ⟨1, 1, List.mem_append_left _ ?_⟩
  rw [← mem_peerEvents, beforeFinalization, peerEvents_append,
    peerEvents_inTurn (List.nodup_finRange _) (List.mem_finRange i), hsighash]
  exact List.mem_append_right _ (mem_signedIn (List.contains_iff_mem.mp (hsigned i)))

theorem op_of_agreed {i : Fin zeroDeployment.build.numPlayers}
    {step : Step (Player.enclave zeroDeployment)} (hstep : step ∈ agreedSteps i) :
    step.op ∈ Player.contract := by
  have hops : (agreedSteps i).map Step.op = Player.contract := playRun_ops
  rw [← hops]
  exact List.mem_map_of_mem hstep

theorem op_of_contract {step : Step (Operator.enclave zeroDeployment)}
    (hstep : step ∈ Operator.contractSteps) : step.op ∈ Operator.contract := by
  have hops : Operator.contractSteps.map Step.op = Operator.contract := playRun_ops
  rw [← hops]
  exact List.mem_map_of_mem hstep

theorem agreedRun_deposits {i : Fin zeroDeployment.build.numPlayers}
    {step : Step (Player.enclave zeroDeployment)} (hstep : step ∈ agreedSteps i)
    {depositTransaction input : Bytes}
    (hop : step.op = Player.Ecall.ecallDepositAndInput depositTransaction input) :
    depositTransaction = [1] ∧ input = [2] := by
  have hmem : Player.Ecall.ecallDepositAndInput depositTransaction input ∈ Player.contract :=
    hop ▸ op_of_agreed hstep
  simpa [Player.contract] using hmem

theorem agreedRun_fits : Fits agreedRun := by
  have hdeposits : DepositsFit agreedRun := by
    intro i step hstep depositTransaction input hop
    obtain ⟨rfl, rfl⟩ := agreedRun_deposits hstep hop
    decide
  refine ⟨hdeposits, fun offer hoffered => ?_⟩
  obtain ⟨collateralTransaction, playersTransactions, hoffer, hclear, hcount, hdeposited⟩ :=
    hoffered.gathered agreedRun_delivers hdeposits
  have hcollateral : collateralTransaction = [2] := by
    obtain ⟨clear, hstep, context, payoutAddress, merklePaths, hop⟩ := hclear
    have hmem : Operator.Ecall.ecallClearContract context payoutAddress collateralTransaction
        merklePaths ∈ Operator.contract := hop ▸ op_of_contract hstep
    simp only [Operator.contract, List.mem_cons, reduceCtorEq, List.not_mem_nil, or_false,
      Operator.Ecall.ecallClearContract.injEq, false_or] at hmem
    exact hmem.2.2.1
  have hplayers : playersTransactions = [[1], [1], [1]] := by
    refine List.ext_getElem hcount fun i hi hi' => ?_
    obtain ⟨step, hstep, depositTransaction, input, hop, hget⟩ :=
      hdeposited ⟨i, by rw [← hcount]; exact hi⟩
    obtain ⟨rfl, -⟩ := agreedRun_deposits hstep hop
    rw [List.getElem?_eq_getElem hi] at hget
    rw [Option.some.inj hget]
    have hall : ∀ transaction ∈ ([[1], [1], [1]] : List Bytes), transaction = [1] := by decide
    exact (hall _ (List.getElem_mem hi')).symm
  rw [hoffer, hcollateral, hplayers]
  decide

def finalizes : Event (Call Operator.Callback) → Bool
  | .issued (.callback (.ocallFinalize _ _)) => true
  | _ => false

/-- The three players agree on the settlement that is handed out. -/
theorem finalized_in_agreement_played : ∃ past settlement sighash depositTransactions,
    BuiltFrom past settlement sighash depositTransactions ∧ Gathered agreedRun depositTransactions ∧
      ∀ i, Confirmed agreedRun past i sighash depositTransactions := by
  have hfinalizes : (eventsOf Operator.contractSteps).any finalizes = true := by decide +kernel
  obtain ⟨event, hevent, hfinalizes⟩ := List.any_eq_true.mp hfinalizes
  have hcallback : ∃ context settlement,
      event = .issued (.callback (.ocallFinalize context settlement)) := by
    cases event with
    | answered c answer => cases hfinalizes
    | issued c =>
      cases c with
      | callback output =>
        cases output with
        | ocallFinalize context settlement => exact ⟨context, settlement, rfl⟩
        | _ => cases hfinalizes
      | _ => cases hfinalizes
  obtain ⟨context, settlement, rfl⟩ := hcallback
  have hmem : .hub (.issued (.callback (.ocallFinalize context settlement))) ∈
      agreedRun.history := by
    rwa [← mem_hubEvents, agreedRun_hub]
  obtain ⟨past, future, hfinalized⟩ := List.append_of_mem hmem
  obtain ⟨sighash, depositTransactions, hagreed⟩ := finalized_in_agreement zeroDeployment agreedRun
    agreedRun_delivers agreedRun_unforgeable agreedRun_fits hfinalized
  exact ⟨past, settlement, sighash, depositTransactions, hagreed⟩

end Examples
end Auntie.Guarantees.Agreement

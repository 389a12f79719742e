import Auntie.Guarantees.Agreement
import Auntie.Guarantees.PlayerReleases
import Auntie.Guarantees.PlayerTable
import Auntie.Guarantees.SettlementAnnouncement

/-!
# One settlement for all players

Nobody tells a player what the others have seen. That all of them sign one settlement, and that
exactly the player it pays is told to have won, rests on the operator's enclave: it clears the
contract once, and whatever reaches a player before the host stops it is of that one call.
-/

namespace Auntie.Guarantees.JointSettlement
open Auntie.Source Auntie.Interaction
open Blocks (Digest)
open Agreement (JointRun History Delivers Fits Gathered Offered mem_eventsOf sent_in_step)
open ChainEvidence (Buried)
open ClearContractDecoding (shownIn shownIn_append)
open SettlementAnnouncement (Announces)
open SettlementOffer (Contribution Offer)

variable {dep : Deployment}

section Statement
variable (run : JointRun dep)

/-- A clear-contract message reaches the player in the slot of its channel. -/
def Wired : Prop :=
  ∀ i, ∀ step ∈ run.peerSteps i, ∀ operator msg, step.before.operator = some operator →
    .answered (.auntieMsgReceive operator.channel) (some msg) ∈ step.events →
    msg.msgType = msgClearContract →
    ∃ channel, channel.id = i.val + 1 ∧ (msg.toMessage, channel) ∈ sentIn (eventsOf run.hubSteps)

/-- The operator's enclave has created a settlement with this hash from these deposits. -/
def Created (sighash : Digest) (depositTransactions : List Bytes) : Prop :=
  ∃ inputs payouts payoutAddresses advices merklePaths memo settlement txid,
    List.Forall₂ (fun depositTransaction input =>
      .hub (.answered (.zcashImportTransaction depositTransaction) (some input)) ∈ run.history)
      depositTransactions inputs ∧
    .hub (.answered (.zcashCreateTransaction inputs payouts payoutAddresses advices merklePaths
      memo) (some settlement)) ∈ run.history ∧
    .hub (.answered (.zcashHashTransaction settlement) (sighash, txid)) ∈ run.history

/-- The settlement with this transaction id pays what the players have deposited, less the fees and
modulo 2^64, to one of them, and nothing to the others. -/
def Pays (txid : Digest) (winner : Nat) : Prop :=
  ∃ clear ∈ run.hubSteps, ∃ contributions : List Contribution,
    List.Forall₂ (Contribution.From clear.before.players clear.events)
      (List.range dep.build.numPlayers) contributions ∧
    ∃ transaction collateral payoutAddress advice advices merklePaths memo settlement sighash,
      .answered (.zcashCreateTransaction (transaction :: contributions.map Contribution.transaction)
        (Operator.operatorPayout dep.build collateral ::
          (List.range dep.build.numPlayers).map fun i =>
            if i = winner then
              (contributions.map (Contribution.depositAmount dep.build)).sum % 2 ^ 64
            else 0)
        (payoutAddress :: contributions.map Contribution.payoutAddress) (advice :: advices)
        merklePaths memo) (some settlement) ∈ clear.events ∧
      .answered (.zcashHashTransaction settlement) (sighash, txid) ∈ clear.events

/-- The event at this point of the history is one of an `ecall_settle` whose blocks bury the
transaction. -/
def SettledOn (i : Fin dep.build.numPlayers) (past : History dep)
    (released : Event (Call Player.Callback)) (context : Pointer) (txid : Digest) : Prop :=
  ∃ earlier settle later mid rest blocks, run.peerSteps i = earlier ++ settle :: later ∧
    settle.events = mid ++ released :: rest ∧ peerEvents i past = eventsOf earlier ++ mid ∧
    settle.op = Player.Ecall.ecallSettle context blocks ∧ Buried dep txid blocks

end Statement

section Announcement
variable {run : JointRun dep}

/-- The call that has sent the messages, and what it offers in them. -/
structure Announced (run : JointRun dep) (clear : Step (Operator.enclave dep)) (offer : Offer) :
    Prop where
  mem : clear ∈ run.hubSteps
  announces : ∃ context payoutAddress merklePaths,
    clear.op = Operator.Ecall.ecallClearContract context payoutAddress offer.collateralTransaction
      merklePaths ∧
    Announces dep.build clear.before offer.collateralTransaction merklePaths clear.events offer
  sent : ∀ msg channel, (msg, channel) ∈ sentIn (eventsOf run.hubSteps) →
    msg.msgType = msgClearContract →
    ClearContractDecoding.Builds dep.build.numPlayers clear.before offer.sighash offer.txid
      offer.outputs offer.depositTransactions
      (.auntieMsgSend msg channel : Call Operator.Callback Int32)

theorem announced_or_silent (run : JointRun dep) :
    (∀ msg channel, (msg, channel) ∈ sentIn (eventsOf run.hubSteps) →
      msg.msgType ≠ msgClearContract) ∨ ∃ clear offer, Announced run clear offer := by
  rcases SettlementAnnouncement.one_announcement run.hubTrace with hsilent |
    ⟨clear, hclear, context, payoutAddress, merklePaths, offer, hop, hannounces, hsent⟩
  · refine .inl fun msg channel h => ?_
    obtain ⟨step, hstep, h⟩ := sent_in_step h
    exact hsilent step hstep msg channel h
  · refine .inr ⟨clear, offer, hclear, ⟨context, payoutAddress, merklePaths, hop, hannounces⟩, ?_⟩
    intro msg channel h
    obtain ⟨step, hstep, h⟩ := sent_in_step h
    exact hsent step hstep msg channel h

variable {clear : Step (Operator.enclave dep)} {offer : Offer}

theorem Announced.offered (h : Announced run clear offer) : Offered run offer := by
  obtain ⟨context, payoutAddress, merklePaths, hop, hannounces⟩ := h.announces
  exact ⟨clear, h.mem, context, payoutAddress, merklePaths, hop, hannounces.contributed,
    hannounces.created⟩

/-- The deposits of the offer are those that the parties have been given. -/
theorem Announced.gathered (h : Announced run clear offer) (hdelivers : Delivers run)
    (hfits : Fits run) : Gathered run offer.depositTransactions :=
  h.offered.gathered hdelivers hfits.deposits

theorem Announced.hub_event (h : Announced run clear offer)
    {event : Event (Call Operator.Callback)} (hevent : event ∈ clear.events) :
    .hub event ∈ run.history := by
  rw [← mem_hubEvents, run.hub_history]
  exact mem_eventsOf h.mem hevent

/-- What the offer was created from. -/
theorem Announced.created (h : Announced run clear offer) :
    Created run offer.sighash offer.depositTransactions := by
  obtain ⟨_, _, merklePaths, -, hannounces⟩ := h.announces
  obtain ⟨transaction, payoutAddress, advice, collateral, memo, himported, hcreated⟩ :=
    hannounces.created
  refine ⟨_, _, _, _, merklePaths, memo, offer.settlement, offer.txid,
    .cons (h.hub_event himported) ?_, h.hub_event hcreated, h.hub_event hannounces.hashed⟩
  rw [List.forall₂_map_left_iff, List.forall₂_map_right_iff, List.forall₂_same]
  intro contribution hmem
  obtain ⟨i, hi, rfl⟩ := List.getElem_of_mem hmem
  have hcount := hannounces.contributed.length_eq
  have hfrom := hannounces.contributed.get (by omega) hi
  exact h.hub_event hfrom.transaction

/-- A message that has arrived is that of one slot. -/
theorem Announced.payload (h : Announced run clear offer) (hdelivers : Delivers run)
    (hfits : Fits run) {msg : ReceivedMessage} {channel : ChannelRef}
    (hsent : (msg.toMessage, channel) ∈ sentIn (eventsOf run.hubSteps))
    (htype : msg.msgType = msgClearContract) :
    ∃ slot player, slot < dep.build.numPlayers ∧ clear.before.players[slot]?.join = some player ∧
      player.channel = channel ∧
      msg.payload = ClearContract.encode offer.sighash offer.txid (offer.outputs.getD slot [])
        offer.depositTransactions ∧
      ClearContractDecoding.contents dep.build.numPlayers msg =
        offer.outputs.getD slot [] :: offer.depositTransactions := by
  obtain ⟨slot, player, hslot, hplayer, hchannel, hmsg⟩ := h.sent _ _ hsent htype
  have hsize := hfits.offers offer h.offered
  obtain ⟨_, _, hdeposits, -, hcount, -⟩ := h.gathered hdelivers hfits
  have hcount : offer.depositTransactions.length = dep.build.numPlayers + 1 := by
    rw [hdeposits, List.length_cons, hcount]
  obtain ⟨_, _, _, -, hannounces⟩ := h.announces
  have houtput := Agreement.output_length hannounces.evaluated slot
  have hpayload : msg.payload = ClearContract.encode offer.sighash offer.txid
      (offer.outputs.getD slot []) offer.depositTransactions := by
    rw [hmsg, Message.ofPayload_payload]
    rw [ClearContractDecoding.encode_length, List.flatten_cons, List.length_append, hcount]
    rw [ClearContract.sizeof] at hsize
    omega
  exact ⟨slot, player, hslot, hplayer, hchannel, hpayload,
    ClearContractDecoding.contents_of_encode hpayload hcount⟩

end Announcement

section Signers
variable {run : JointRun dep}

/-- A player that signs has received the hash in a message, with the deposits it has shown. -/
theorem kept_of_signed {i : Fin dep.build.numPlayers} {past future : History dep}
    {key advice : Pointer} {sighash : Digest}
    (hhistory : run.history =
      past ++ .peer i (.issued (.zcashSignTransaction key advice sighash)) :: future) :
    ∃ get ∈ run.peerSteps i, ∃ operator msg, InformedSignature.Keeps dep.build.numPlayers get
      sighash (shownIn (peerEvents i past)) operator msg := by
  obtain ⟨earlier, step, later, mid, rest, hsteps, hevents, hpast⟩ := run.peer_at hhistory
  have hsigns : .issued (.zcashSignTransaction key advice sighash) ∈ step.events := by
    rw [hevents]
    exact List.mem_append_right _ List.mem_cons_self
  obtain ⟨-, hquiet, get, hget, operator, msg, hkeeps⟩ :=
    InformedSignature.signed_informed (run.peerTrace i) hsteps hsigns
  rw [hevents, shownIn_append] at hquiet
  have hshown : shownIn (peerEvents i past) = shownIn (eventsOf earlier) := by
    rw [hpast, shownIn_append, (List.append_eq_nil_iff.mp hquiet).1, List.append_nil]
  rw [hshown, hsteps]
  exact ⟨get, List.mem_append_left _ hget, operator, msg, hkeeps⟩

/-- Of all signatures that the players make in a run, in any order and whether the contract is
finalized or not, each is for the hash of one settlement, and each player has shown before, to
its host, the deposits that settlement was created from. -/
theorem signers_agree (dep : Deployment) (run : JointRun dep) (hdelivers : Delivers run)
    (hfits : Fits run) : ∃ sighash depositTransactions,
      ∀ i past future key advice sighash', run.history =
        past ++ .peer i (.issued (.zcashSignTransaction key advice sighash')) :: future →
        sighash' = sighash ∧ shownIn (peerEvents i past) = depositTransactions ∧
          Gathered run depositTransactions ∧ Created run sighash depositTransactions := by
  rcases announced_or_silent run with hsilent | ⟨clear, offer, hoffer⟩
  · refine ⟨FixedBytes.zero 32, [], fun i past future key advice sighash' hhistory => ?_⟩
    obtain ⟨get, hget, operator, msg, hkeeps⟩ := kept_of_signed hhistory
    obtain ⟨channel, hsent⟩ := hdelivers.toPlayer i get hget operator msg hkeeps.connected
      hkeeps.arrived
    exact absurd hkeeps.msgType (hsilent _ channel hsent)
  · refine ⟨offer.sighash, offer.depositTransactions,
      fun i past future key advice sighash' hhistory => ?_⟩
    obtain ⟨get, hget, operator, msg, hkeeps⟩ := kept_of_signed hhistory
    obtain ⟨channel, hsent⟩ := hdelivers.toPlayer i get hget operator msg hkeeps.connected
      hkeeps.arrived
    obtain ⟨_, _, -, -, -, hpayload, hcontents⟩ :=
      hoffer.payload hdelivers hfits hsent hkeeps.msgType
    rw [ClearContractDecoding.contents, List.cons_append, List.cons.injEq] at hcontents
    refine ⟨?_, ?_, hoffer.gathered hdelivers hfits, hoffer.created⟩
    · rw [hkeeps.settlementSighash, ClearContractDecoding.settlementSighash_eq hpayload]
    · rw [hkeeps.shown, hcontents.2]

end Signers

section Winner
variable {run : JointRun dep} {clear : Step (Operator.enclave dep)} {offer : Offer}

/-- When the contract is cleared, each slot is that of its channel. -/
theorem Announced.table (h : Announced run clear offer) :
    PlayerTable.Table dep.build.numPlayers clear.before := by
  have hthroughout : Throughout (fun earlier step => PlayerTable.History earlier step.before ∧
      step.Valid ∧ True) run.hubSteps :=
    run.hubTrace.throughout (fun _ _ _ _ => trivial) PlayerTable.initial_history
      fun _ _ hhistory valid _ _ => hhistory.next valid
  obtain ⟨earlier, later, hsplit⟩ := List.append_of_mem h.mem
  obtain ⟨hhistory, -, -⟩ := hthroughout earlier clear later hsplit
  exact hhistory.table

/-- The outputs are those of a lottery, and the settlement pays its winner. -/
theorem Announced.drawn (h : Announced run clear offer) (hpositive : 1 ≤ dep.build.numPlayers)
    (hplayers : dep.build.numPlayers < 2 ^ 31) :
    ∃ winner < dep.build.numPlayers, Pays run offer.txid winner ∧ offer.outputs =
      (List.range dep.build.numPlayers).map fun i =>
        if i = winner then Operator.winnerMessage else Operator.loserMessage := by
  obtain ⟨_, _, merklePaths, -, hannounces⟩ := h.announces
  obtain ⟨hret, globals, events, last, hexec⟩ := hannounces.evaluated
  obtain ⟨random, -, hdrawn⟩ :=
    hexec.taped (Lottery.evaluateFunctionality_spec hpositive hplayers _) hret
  obtain ⟨transaction, payoutAddress, advice, collateral, memo, -, hcreated⟩ := hannounces.created
  refine ⟨_, Nat.mod_lt _ hpositive, ?_, hdrawn.outputs⟩
  rw [hdrawn.payouts] at hcreated
  exact ⟨clear, h.mem, offer.contributions, hannounces.contributed, transaction, collateral,
    payoutAddress, advice, _, merklePaths, memo, offer.settlement, offer.sighash, hcreated,
    hannounces.hashed⟩

/-- A player that releases an output has received it, and the transaction is on the chain. -/
theorem kept_of_released (hdelay : 0 < dep.build.settleDelayBlocks) {i : Fin dep.build.numPlayers}
    {past future : History dep} {context : Pointer} {payoutKey output : Bytes} {length : Nat}
    (hhistory : run.history = past ++ .peer i (.issued (.callback
      (.ocallSettle context payoutKey (some output) length))) :: future) :
    ∃ get ∈ run.peerSteps i, ∃ operator msg, get.before.operator = some operator ∧
      .answered (.auntieMsgReceive operator.channel) (some msg) ∈ get.events ∧
      msg.msgType = msgClearContract ∧
      SettledOn run i past (.issued (.callback (.ocallSettle context payoutKey (some output)
        length))) context (ClearContract.settlementTxid msg) ∧
      output = ClearContract.output dep.build.numPlayers msg ∧
      length = ClearContract.outputLength msg := by
  obtain ⟨earlier, step, later, mid, rest, hsteps, hevents, hpast⟩ := run.peer_at hhistory
  obtain ⟨hhanded, hbacked⟩ :=
    PlayerReleases.released_before hdelay (run.peerTrace i) hsteps hevents
  obtain ⟨⟨blocks, hop, hburied⟩, -, -, houtput, hlength⟩ := hhanded
  obtain ⟨buffer, hbuffer, rfl⟩ := Option.map_eq_some_iff.mp houtput.symm
  obtain ⟨get, hget, operator, msg, hretains⟩ := hbacked.output buffer hbuffer
  rw [hretains.settlementTxid] at hburied
  refine ⟨get, ?_, operator, msg, hretains.connected, hretains.arrived, hretains.msgType,
    ⟨earlier, step, later, mid, rest, blocks, hsteps, hevents, hpast, hop, hburied⟩,
    hretains.output, hlength.trans hretains.outputLength⟩
  rw [hsteps]
  exact List.mem_append_left _ hget

/-- Of all outputs that the players release in a run, only that of one player says that it has
won; the settlement that the operator's enclave has created pays this player what all of them
have deposited, less the fees, and every player releases its output in an `ecall_settle` on blocks
that bury that settlement. -/
theorem one_winner (dep : Deployment) (run : JointRun dep) (hdelivers : Delivers run)
    (hfits : Fits run) (hwired : Wired run) (hdelay : 0 < dep.build.settleDelayBlocks)
    (hplayers : dep.build.numPlayers < 2 ^ 31) : ∃ txid winner,
      ∀ i past future context payoutKey output length, run.history = past ++ .peer i (.issued
          (.callback (.ocallSettle context payoutKey (some output) length))) :: future →
        winner < dep.build.numPlayers ∧ Pays run txid winner ∧
          SettledOn run i past (.issued (.callback (.ocallSettle context payoutKey (some output)
            length))) context txid ∧
          length = output.length ∧ output =
            if i.val = winner then Operator.winnerMessage else Operator.loserMessage := by
  rcases announced_or_silent run with hsilent | ⟨clear, offer, hoffer⟩
  · refine ⟨FixedBytes.zero 32, 0,
      fun i past future context payoutKey output length hhistory => ?_⟩
    obtain ⟨get, hget, operator, msg, hconnected, harrived, htype, -⟩ :=
      kept_of_released hdelay hhistory
    obtain ⟨channel, -, hsent⟩ := hwired i get hget operator msg hconnected harrived htype
    exact absurd htype (hsilent _ channel hsent)
  · by_cases hpositive : 1 ≤ dep.build.numPlayers
    · obtain ⟨winner, hwinner, hpays, houtputs⟩ := hoffer.drawn hpositive hplayers
      refine ⟨offer.txid, winner,
        fun i past future context payoutKey output length hhistory => ?_⟩
      obtain ⟨get, hget, operator, msg, hconnected, harrived, htype, hsettled, hkept, hlength⟩ :=
        kept_of_released hdelay hhistory
      obtain ⟨channel, hid, hsent⟩ := hwired i get hget operator msg hconnected harrived htype
      obtain ⟨slot, player, hslot, hplayer, hchannel, hpayload, hcontents⟩ :=
        hoffer.payload hdelivers hfits hsent htype
      have hsame : slot = i.val := by
        have hids := hoffer.table.ids slot player (Option.join_eq_some_iff.mp hplayer)
        rw [hchannel, hid] at hids
        omega
      rw [ClearContractDecoding.contents, List.cons_append, List.cons.injEq] at hcontents
      rw [ClearContractDecoding.settlementTxid_eq hpayload] at hsettled
      refine ⟨hwinner, hpays, hsettled, ?_, ?_⟩
      · rw [hkept, ClearContract.output, ReceivedMessage.read_length, hlength]
      · rw [hkept, hcontents.1, hsame, houtputs, List.getD_eq_getElem?_getD, List.getElem?_map,
          List.getElem?_range i.isLt]
        rfl
    · refine ⟨FixedBytes.zero 32, 0, fun i => ?_⟩
      exact absurd i.isLt (by omega)

end Winner

section Examples
open Agreement
open Blocks (zeroBlocks zeroBlocks_buried)

theorem has_player : 0 < zeroDeployment.build.numPlayers := by decide

def firstPlayer : Fin zeroDeployment.build.numPlayers := ⟨0, has_player⟩

/-- The three players sign one hash. -/
theorem signers_agree_played : ∃ sighash depositTransactions,
    (∀ i, ∃ past future key advice, agreedRun.history =
      past ++ .peer i (.issued (.zcashSignTransaction key advice sighash)) :: future) ∧
    Gathered agreedRun depositTransactions ∧ Created agreedRun sighash depositTransactions := by
  obtain ⟨sighash, depositTransactions, hagree⟩ :=
    signers_agree zeroDeployment agreedRun agreedRun_delivers agreedRun_fits
  have hsigned : ∀ i, (signedIn (eventsOf (agreedSteps i))).contains (1, 1, FixedBytes.zero 32) =
      true := by
    decide +kernel
  have hsigns : ∀ i, ∃ past future, agreedRun.history = past ++
      .peer i (.issued (.zcashSignTransaction 1 1 (FixedBytes.zero 32))) :: future := by
    intro i
    have hmem := mem_signedIn (List.contains_iff_mem.mp (hsigned i))
    have hpeer : peerEvents i agreedRun.history = eventsOf (agreedSteps i) := agreedRun.peer_history i
    rw [← hpeer, mem_peerEvents] at hmem
    exact List.append_of_mem hmem
  obtain ⟨past, future, hhistory⟩ := hsigns firstPlayer
  obtain ⟨rfl, -, hgathered, hcreated⟩ := hagree firstPlayer past future 1 1 _ hhistory
  refine ⟨FixedBytes.zero 32, depositTransactions, fun i => ?_, hgathered, hcreated⟩
  obtain ⟨past, future, hhistory⟩ := hsigns i
  exact ⟨past, future, 1, 1, hhistory⟩

section Settlement
open Player
variable {globals : Globals} {blocks : Bytes}

/-- A settlement in which every call succeeds. -/
def settleStep (dep : Deployment) (globals : Globals) (payoutWallet : Wallet) (blocks : Bytes)
    (payoutKey : FixedBytes 32) : Step (enclave dep) where
  before := globals
  op := .ecallSettle 0 blocks
  events := [.issued (.malloc 32), .answered (.malloc 32) (some 0),
    .issued (.zcashExportKeyImpl payoutWallet.key),
    .answered (.zcashExportKeyImpl payoutWallet.key) payoutKey,
    .issued (.callback (.ocallSettle 0 payoutKey.val
      (globals.functionalityOutput.map Buffer.contents) globals.functionalityOutputLength)),
    .answered (.callback (.ocallSettle 0 payoutKey.val
      (globals.functionalityOutput.map Buffer.contents) globals.functionalityOutputLength))
      (0 : Int32),
    .issued (.free 0), .answered (.free 0) ()]
  after := { globals with state := .settled }
  result := some (0 : Int32)

theorem settleStep_valid {depositWallet payoutWallet : Wallet} {count : Int32}
    (hstate : globals.state = .confirmedDeposits)
    (hburied : (Blocks.zcashAuthorizedAndBuried dep.crates dep.build globals.settlementTxid
      blocks).outcome = .returned count)
    (hchain : chainError dep.build.settleDelayBlocks count = none)
    (hwallet : globals.depositWallet = some depositWallet)
    (hpayout : globals.payoutWallet = some payoutWallet) (payoutKey : FixedBytes 32) :
    (settleStep dep globals payoutWallet blocks payoutKey).Valid := by
  change Exec (ecallSettle dep 0 blocks) globals _ _ (some 0)
  simp [settleStep, ecallSettle, ecallSettleImpl, zcashExportKey, zcashExport, setState, deref,
    chainVerifier, hstate, hburied, hchain, hwallet, hpayout, -bind_pure_comp]

end Settlement

/-- The first player settles on a chain of 81 blocks. -/
def firstSettles : Step (Player.enclave zeroDeployment) :=
  settleStep zeroDeployment (agreedState firstPlayer) ⟨1, 1, 1⟩ (zeroBlocks 80) (FixedBytes.zero 32)

theorem firstSettles_before : firstSettles.before = agreedState firstPlayer := by
  rw [firstSettles, settleStep]

theorem firstSettles_valid : firstSettles.Valid := by
  have hstate : (agreedState firstPlayer).state = .confirmedDeposits := by decide +kernel
  have htxid : (agreedState firstPlayer).settlementTxid = FixedBytes.zero 32 := by decide +kernel
  have hwallet : (agreedState firstPlayer).depositWallet = some ⟨1, 1, 1⟩ := by decide +kernel
  have hpayout : (agreedState firstPlayer).payoutWallet = some ⟨1, 1, 1⟩ := by decide +kernel
  have hburied : (Blocks.zcashAuthorizedAndBuried zeroDeployment.crates zeroDeployment.build
      (agreedState firstPlayer).settlementTxid (zeroBlocks 80)).outcome =
        .returned (Int32.ofNat 80) := by
    rw [htxid]
    exact zeroBlocks_buried 80
  exact settleStep_valid hstate hburied (by decide) hwallet hpayout _

/-- The players confirm, the operator finalizes, the first player settles. -/
def settledSteps (i : Fin zeroDeployment.build.numPlayers) :
    List (Step (Player.enclave zeroDeployment)) :=
  if i = firstPlayer then agreedSteps i ++ [firstSettles] else agreedSteps i

def settledState (i : Fin zeroDeployment.build.numPlayers) : Player.Globals :=
  if i = firstPlayer then firstSettles.after else agreedState i

theorem settledSteps_run (i : Fin zeroDeployment.build.numPlayers) :
    Run (Player.enclave zeroDeployment) Player.initial (settledSteps i) (settledState i) := by
  by_cases hfirst : i = firstPlayer
  · rw [settledSteps, settledState, if_pos hfirst, if_pos hfirst, hfirst]
    have hrun := agreedSteps_run firstPlayer
    rw [← firstSettles_before] at hrun
    exact Run.next hrun firstSettles_valid rfl
  · rw [settledSteps, settledState, if_neg hfirst, if_neg hfirst]
    exact agreedSteps_run i

theorem contractSteps_trace : Trace (Operator.enclave zeroDeployment)
    (Operator.initial zeroDeployment) Operator.contractSteps Operator.contractState :=
  .resting Operator.contractSteps_run

theorem settledSteps_trace (i : Fin zeroDeployment.build.numPlayers) :
    Trace (Player.enclave zeroDeployment) Player.initial (settledSteps i) (settledState i) :=
  .resting (settledSteps_run i)

theorem mem_settledSteps {i : Fin zeroDeployment.build.numPlayers}
    {step : Step (Player.enclave zeroDeployment)} (h : step ∈ settledSteps i) :
    step ∈ agreedSteps i ∨ step = firstSettles := by
  rw [settledSteps] at h
  split at h
  · simpa using h
  · exact .inl h

theorem agreedSteps_settled {i : Fin zeroDeployment.build.numPlayers}
    {step : Step (Player.enclave zeroDeployment)} (h : step ∈ agreedSteps i) :
    step ∈ settledSteps i := by
  rw [settledSteps]
  split
  · exact List.mem_append_left _ h
  · exact h

def settledHistory : History zeroDeployment :=
  agreedRun.history ++ firstSettles.events.map (.peer firstPlayer)

theorem settledHistory_hub : hubEvents settledHistory = eventsOf Operator.contractSteps := by
  rw [settledHistory, hubEvents_append, hubEvents_peer, List.append_nil]
  exact agreedRun.hub_history

theorem settledHistory_peer (i : Fin zeroDeployment.build.numPlayers) :
    peerEvents i settledHistory = eventsOf (settledSteps i) := by
  have hagreed : peerEvents i agreedRun.history = eventsOf (agreedSteps i) :=
    agreedRun.peer_history i
  rw [settledHistory, peerEvents_append, peerEvents_peer, hagreed, settledSteps]
  split
  · simp [eventsOf]
  · rw [List.append_nil]

def settledRun : JointRun zeroDeployment where
  history := settledHistory
  hubSteps := Operator.contractSteps
  hubState := Operator.contractState
  hubTrace := contractSteps_trace
  peerSteps := settledSteps
  peerState := settledState
  peerTrace := settledSteps_trace
  hub_history := settledHistory_hub
  peer_history := settledHistory_peer

def arrives : Event (Call Player.Callback) → Bool
  | .answered (.auntieMsgReceive _) _ => true
  | _ => false

theorem firstSettles_quiet {channel : ChannelRef} {answer : Option ReceivedMessage} :
    .answered (.auntieMsgReceive channel) answer ∉ firstSettles.events := by
  intro hmem
  have harrived : firstSettles.events.any arrives = true := List.any_eq_true.mpr ⟨_, hmem, rfl⟩
  cases harrived

theorem settledRun_delivers : Delivers settledRun := by
  constructor
  · intro step hstep i player msg hplayer hreceived
    obtain ⟨channel, hsent⟩ := agreedRun_delivers.toOperator step hstep i player msg hplayer hreceived
    obtain ⟨other, hother, hsent⟩ := sent_in_step hsent
    refine ⟨channel, mem_sentIn.mpr (mem_eventsOf (?_ : other ∈ settledSteps i) ?_)⟩
    · exact agreedSteps_settled hother
    · exact mem_sentIn.mp hsent
  · intro i step hstep operator msg hoperator hreceived
    rcases mem_settledSteps hstep with hstep | rfl
    · exact agreedRun_delivers.toPlayer i step hstep operator msg hoperator hreceived
    · exact absurd hreceived firstSettles_quiet

theorem settledRun_wired : Wired settledRun := by
  intro i step hstep operator msg hoperator hreceived htype
  rcases mem_settledSteps hstep with hstep | rfl
  · have hsent : ∀ i, (agreedSteps i).all (fun step =>
        (arrivedIn step.events).all fun (_, msg) => step.before.operator.isNone ||
          msg.msgType ≠ msgClearContract ||
            (sentIn (eventsOf Operator.contractSteps)).any fun (sent, channel) =>
              channel.id = i.val + 1 && sent = msg.toMessage) = true := by
      decide +kernel
    have hsent := List.all_eq_true.mp (List.all_eq_true.mp (hsent i) step hstep) _
      (mem_arrivedIn.mpr hreceived)
    simp only [hoperator, Option.isNone_some, Bool.false_or, htype, ne_eq, not_true_eq_false,
      decide_false, List.any_eq_true, Bool.and_eq_true, decide_eq_true_eq, Prod.exists] at hsent
    obtain ⟨sent, channel, hmem, hid, rfl⟩ := hsent
    exact ⟨channel, hid, hmem⟩
  · exact absurd hreceived firstSettles_quiet

theorem settledRun_fits : Fits settledRun := by
  constructor
  · intro i step hstep depositTransaction input hop
    rcases mem_settledSteps hstep with hstep | rfl
    · exact agreedRun_fits.deposits i step hstep depositTransaction input hop
    · cases hop
  · rintro offer ⟨clear, hclear, hoffered⟩
    exact agreedRun_fits.offers offer ⟨clear, hclear, hoffered⟩

/-- The first player has won. -/
theorem one_winner_played : ∃ txid past length, Pays settledRun txid 0 ∧
    SettledOn settledRun firstPlayer past (.issued (.callback (.ocallSettle 0
      (FixedBytes.zero 32).val (some Operator.winnerMessage) length))) 0 txid := by
  obtain ⟨txid, winner, hwins⟩ := one_winner zeroDeployment settledRun settledRun_delivers
    settledRun_fits settledRun_wired (by decide) (by decide)
  have houtput : (agreedState firstPlayer).functionalityOutput.map Buffer.contents =
      some Operator.winnerMessage := by decide +kernel
  have hmem : .peer firstPlayer (.issued (.callback (.ocallSettle 0 (FixedBytes.zero 32).val
      (some Operator.winnerMessage) (agreedState firstPlayer).functionalityOutputLength))) ∈
      settledRun.history := by
    refine List.mem_append_right _ (List.mem_map_of_mem ?_)
    rw [firstSettles, settleStep, houtput]
    simp
  obtain ⟨past, future, hhistory⟩ := List.append_of_mem hmem
  obtain ⟨-, hpays, hsettled, -, hmessage⟩ := hwins firstPlayer past future _ _ _ _ hhistory
  have hfirst : winner = 0 := by
    by_contra hother
    rw [if_neg (fun h => hother h.symm)] at hmessage
    cases hmessage
  rw [hfirst] at hpays
  exact ⟨txid, past, _, hpays, hsettled⟩

end Examples

end Auntie.Guarantees.JointSettlement

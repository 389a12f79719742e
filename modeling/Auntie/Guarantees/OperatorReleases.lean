import Auntie.Guarantees.ChainEvidence
import Auntie.Guarantees.Lottery
import Auntie.Guarantees.ReleaseOnce
import Auntie.Guarantees.SettlementOffer
import Auntie.Guarantees.WalletKeys

/-!
# What the operator's enclave gives away

Four OCALLs carry something out of the operator's enclave: its deposit address, the players' deposit
transactions, the settlement, and the deposit key. The settlement spends what the messages of all
players and the operator's own arguments have named, pays the winner of the lottery, and carries
the signature the operator made when it was created and the one each player has confirmed with.
-/

namespace Auntie.Guarantees.OperatorReleases
open Auntie.Source Auntie.Source.Operator Auntie.Interaction
open Blocks (Digest)
open ChainEvidence (Aged)
open ReleaseOnce (releasesSettlement)
open SettlementOffer (Contribution Collects nextState)
open WalletKeys

section Statement

/-- What one player confirms with: the message, and the signature imported from it. -/
structure Confirmation where
  msg : ReceivedMessage
  signature : Pointer

/-- The signature comes from a message that arrived on the channel of the slot. -/
structure Confirmation.From (players : List (Option Player))
    (events : List (Event (Call Callback))) (i : Nat) (confirmation : Confirmation) : Prop where
  received : ∃ player, players[i]?.join = some player ∧
    .answered (.auntieMsgReceive player.channel) (some confirmation.msg) ∈ events
  msgType : confirmation.msg.msgType = msgConfirmDeposits
  signature : .answered (.zcashImportSignature (ConfirmDeposits.signature confirmation.msg))
    (some confirmation.signature) ∈ events

/-- What a settlement is made of, its hashes and the operator's signature on it. -/
structure Composition where
  contributions : List Contribution
  payouts : List Nat
  transaction : Pointer
  payoutAddress : Pointer
  advice : Pointer
  collateral : Nat
  memo : FixedBytes 512
  settlement : Pointer
  sighash : Digest
  txid : Digest
  signature : Pointer

/-- The winner that was drawn is paid what all players have deposited. -/
def Composition.Pays (build : Build) (events : List (Event (Call Callback)))
    (composition : Composition) : Prop :=
  ∃ random : FixedBytes 4, .answered (.sgxReadRand 4) (some random) ∈ events ∧
    composition.payouts = (List.range build.numPlayers).map fun i =>
      if i = leValue random.val % build.numPlayers then
        (composition.contributions.map (Contribution.depositAmount build)).sum % 2 ^ 64
      else 0

/-- The operator's part comes from the arguments of the ECALL and the deposit wallet, that of
each player from its message. -/
structure Composes (build : Build) (globals : Globals)
    (payoutAddress collateralTransaction merklePaths : Bytes)
    (events : List (Event (Call Callback))) (composition : Composition) : Prop where
  operator : ∃ wallet, globals.depositWallet = some wallet ∧
    .answered (.zcashCreateAdvice wallet.key) (some composition.advice) ∈ events ∧
    .answered (.zcashDepositedAmount composition.transaction wallet.key) composition.collateral ∈
      events ∧
    .answered (.zcashSignTransaction wallet.key composition.advice composition.sighash)
      (some composition.signature) ∈ events
  payoutAddress : .answered (.zcashImportAddress payoutAddress) (some composition.payoutAddress) ∈
    events
  transaction : .answered (.zcashImportTransaction collateralTransaction)
    (some composition.transaction) ∈ events
  covered : build.operatorCollateral + build.minerFeePerParty ≤ composition.collateral
  contributed : List.Forall₂ (Contribution.From globals.players events)
    (List.range build.numPlayers) composition.contributions
  pays : composition.Pays build events
  memo : .answered .getSettlementMemo composition.memo ∈ events
  created : .answered (.zcashCreateTransaction
    (composition.transaction :: composition.contributions.map Contribution.transaction)
    (operatorPayout build composition.collateral :: composition.payouts)
    (composition.payoutAddress :: composition.contributions.map Contribution.payoutAddress)
    (composition.advice :: composition.contributions.map Contribution.advice) merklePaths
    composition.memo) (some composition.settlement) ∈ events
  hashed : .answered (.zcashHashTransaction composition.settlement)
    (composition.sighash, composition.txid) ∈ events

/-- The settlement that was kept, authorized by the operator's signature and one of each player. -/
def Authorizes (build : Build) (globals : Globals) (events : List (Event (Call Callback)))
    (settlement : Bytes) : Prop :=
  ∃ operatorSignature unauthorized authorized confirmations length,
    globals.operatorSignature = some operatorSignature ∧
    globals.unauthorizedSettlement = some unauthorized ∧
    List.Forall₂ (Confirmation.From globals.players events) (List.range build.numPlayers)
      confirmations ∧
    .answered (.zcashAuthorizeTransaction unauthorized
      (operatorSignature :: confirmations.map Confirmation.signature)) (some authorized) ∈ events ∧
    ∃ raw : FixedBytes length,
      .answered (.zcashExportTransactionImpl authorized length) raw ∈ events ∧
      raw.val = settlement

/-- What a callback hands out, and what its ECALL has seen before. -/
def Handed (dep : Deployment) (op : Ecall) (before : Globals)
    (events : List (Event (Call Callback))) : Callback → Prop
  | .ocallInitialize context depositAddress => op = .ecallInitialize context ∧
      before.state = .uninitialized ∧
      ∃ wallet, Made events wallet ∧ ExportsAddress events wallet depositAddress
  | .ocallClearContract context depositTransaction =>
      (∃ payoutAddress collateralTransaction merklePaths, op =
        .ecallClearContract context payoutAddress collateralTransaction merklePaths) ∧
      before.state = .initialized ∧ ∃ contributions : List Contribution,
        List.Forall₂ (Contribution.From before.players events) (List.range dep.build.numPlayers)
          contributions ∧
        depositTransaction ∈ contributions.map Contribution.depositTransaction
  | .ocallFinalize context settlement => op = .ecallFinalize context ∧
      before.state = .clearedContract ∧ Authorizes dep.build before events settlement
  | .ocallRefund context depositKey => (∃ blocks, op = .ecallRefund context blocks ∧
        Aged dep blocks) ∧
      before.state ≠ .finalized ∧
      ∃ wallet, before.depositWallet = some wallet ∧ ExportsKey events wallet depositKey

variable {dep : Deployment}

/-- The wallet comes from the call that handed out its address. -/
def Announced (steps : List (Step (enclave dep))) (wallet : Wallet) : Prop :=
  ∃ init ∈ steps, Made init.events wallet ∧ ∃ context depositAddress,
    ExportsAddress init.events wallet depositAddress ∧
    .issued (.callback (.ocallInitialize context depositAddress)) ∈ init.events

/-- The settlement and the operator's signature come from one call that has cleared the contract
with the deposit wallet. -/
def Composed (steps : List (Step (enclave dep))) (globals : Globals) : Prop :=
  ∃ clear ∈ steps, ∃ context payoutAddress collateralTransaction merklePaths composition,
    clear.op =
      Ecall.ecallClearContract context payoutAddress collateralTransaction merklePaths ∧
    Composes dep.build clear.before payoutAddress collateralTransaction merklePaths clear.events
      composition ∧
    globals.unauthorizedSettlement = some composition.settlement ∧
    globals.operatorSignature = some composition.signature ∧
    globals.depositWallet = clear.before.depositWallet

structure Backed (earlier : List (Step (enclave dep))) (globals : Globals) : Prop where
  depositWallet : ∀ wallet, globals.depositWallet = some wallet → Announced earlier wallet
  settlement : globals.state = .clearedContract → Composed earlier globals

end Statement

section Ecalls
open Program (Within)
variable {dep : Deployment} {before globals : Globals} {op : Ecall}
variable {earlier : List (Event (Call Callback))}

def Releases (dep : Deployment) (op : Ecall) (before : Globals)
    (events : List (Event (Call Callback))) {β : Type} : Call Callback β → Prop
  | .callback output => Handed dep op before events output
  | _ => True

/-- The calls that hand nothing out. -/
def Withheld {β : Type} : Call Callback β → Prop
  | .callback _ => False
  | _ => True

theorem withheld_of_internal {β : Type} (c : Call Callback β) (h : c.Internal) : Withheld c := by
  cases c with
  | callback => exact absurd h id
  | _ => trivial

theorem releases_withheld {β : Type} (c : Call Callback β) (h : Withheld c)
    (events : List (Event (Call Callback))) : Releases dep op before events c := by
  cases c with
  | callback => exact absurd h id
  | _ => trivial

theorem releases_internal {β : Type} (c : Call Callback β) (h : c.Internal)
    (events : List (Event (Call Callback))) : Releases dep op before events c :=
  releases_withheld c (withheld_of_internal c h) events

/-- No settlement has been handed out. -/
def Unsettled (events : List (Event (Call Callback))) : Prop :=
  events.any (issues releasesSettlement) = false

theorem Unsettled.append {events later : List (Event (Call Callback))} (h : Unsettled events)
    (hlater : Unsettled later) : Unsettled (events ++ later) := by
  rw [Unsettled, List.any_append, h, hlater]
  rfl

theorem Unsettled.call {events : List (Event (Call Callback))} {β : Type} {c : Call Callback β}
    {answer : β} (h : Unsettled events) (hc : releasesSettlement c = false) :
    Unsettled (events ++ [.issued c, .answered c answer]) := by
  refine h.append ?_
  rw [Unsettled, List.any_cons, issues, hc]
  rfl

theorem unsettled_of_exec {α : Type} {p : Code α} {keeps : Globals → Prop} {last : Globals}
    {events : List (Event (Call Callback))} {result : Option α} (h : p.Within Withheld keeps)
    (hexec : Exec p globals events last result) (hstate : keeps globals) : Unsettled events := by
  rw [Unsettled, List.any_eq_false]
  intro event hevent
  cases event with
  | answered c answer => exact Bool.false_ne_true
  | issued c =>
    have hwithheld := h.issued hexec hstate hevent
    cases c with
    | callback => exact absurd hwithheld id
    | _ => exact Bool.false_ne_true

section Initialize

/-- The wallet that a call leaves has been made by it, and its address handed out. -/
def Leaves (last : Globals) (events : List (Event (Call Callback))) : Prop :=
  ∀ wallet, last.depositWallet = some wallet → Made events wallet ∧ ∃ context depositAddress,
    ExportsAddress events wallet depositAddress ∧
    .issued (.callback (.ocallInitialize context depositAddress)) ∈ events

theorem leaves_none {last : Globals} {events : List (Event (Call Callback))}
    (hnone : last.depositWallet = none) : Leaves last events := by
  intro wallet hwallet
  cases hnone.symm.trans hwallet

theorem ecallInitializeImpl_hands (context : Pointer) (hstate : before.state = .uninitialized) :
    wp (recording (Releases dep (.ecallInitialize context) before))
      (fun _ last events => Leaves last events) (ecallInitializeImpl context) before [] := by
  rw [ecallInitializeImpl, wp_bind]
  refine zcashCreateWallet_recorded releases_internal fun depositWallet first hfirst => ?_
  rw [wp_bind, wp_modify]
  cases depositWallet with
  | none => exact leaves_none rfl
  | some depositWallet =>
    have hmade := hfirst depositWallet rfl
    simp only [zcashExportAddress, wp_bind]
    refine zcashExport_recorded releases_internal trivial fun address second haddress => ?_
    cases address with
    | error ret =>
      simp only [wp_bind]
      exact zcashReleaseWallet_recorded releases_internal fun _ => leaves_none rfl
    | ok address =>
      have hexported : ExportsAddress second depositWallet address.contents := haddress
      simp only [wp_bind, wp_recording_issue]
      refine ⟨⟨rfl, hstate, depositWallet, hmade.mono (by simp), hexported.mono (by simp)⟩,
        fun ret => ⟨trivial, fun _ => ?_⟩⟩
      rw [wp_ite]
      refine ⟨fun _ => ?_, fun _ wallet hwallet => ?_⟩
      · simp only [wp_bind]
        exact zcashReleaseWallet_recorded releases_internal fun _ => leaves_none rfl
      · cases hwallet
        exact ⟨hmade.mono (by simp), context, address.contents,
          hexported.mono fun _ h => by simp [h], by simp⟩

end Initialize

section ClearContract
variable {context : Pointer} {payoutAddress collateralTransaction merklePaths : Bytes}

/-- The deposit transactions of the messages that have arrived. -/
theorem outputDeposits_hands {contributions : List Contribution}
    (hop : op = .ecallClearContract context payoutAddress collateralTransaction merklePaths)
    (hstate : before.state = .initialized)
    (hcontributed : List.Forall₂ (Contribution.From before.players earlier)
      (List.range dep.build.numPlayers) contributions) {depositTransactions : List Bytes}
    (hdeposits : depositTransactions ⊆ contributions.map Contribution.depositTransaction) :
    wp (recording (Releases dep op before))
      (fun _ last events => last = globals ∧ earlier ⊆ events)
      (outputDeposits context depositTransactions) globals earlier := by
  induction depositTransactions generalizing earlier with
  | nil => exact ⟨rfl, List.Subset.refl _⟩
  | cons depositTransaction rest ih =>
    obtain ⟨hfirst, hrest⟩ := List.cons_subset.mp hdeposits
    simp only [outputDeposits, wp_bind, wp_recording_issue, wp_ite, wp_pure]
    constructor
    · exact ⟨⟨payoutAddress, collateralTransaction, merklePaths, hop⟩, hstate, contributions,
        hcontributed, hfirst⟩
    · intro ret
      refine ⟨fun _ => ⟨trivial, List.subset_append_left _ _⟩, fun _ => ?_⟩
      refine wp_mono ?_ (ih ?_ hrest)
      · intro error last events h
        obtain ⟨hlast, hevents⟩ := h
        exact ⟨hlast, (List.append_subset.mp hevents).1⟩
      · exact hcontributed.imp fun _ _ h => h.mono (List.subset_append_left _ _)

/-- The operator has signed. -/
def Signed (globals last : Globals) (advices : List Pointer) (sighash : Digest)
    (events : List (Event (Call Callback))) : Prop :=
  ∃ wallet advice signature, globals.depositWallet = some wallet ∧ advices.head? = some advice ∧
    .answered (.zcashSignTransaction wallet.key advice sighash) (some signature) ∈ events ∧
    last = { globals with operatorSignature := some signature }

theorem signSettlement_signs (advices : List Pointer) (sighash : Digest) :
    wp (recording (Releases dep op before))
      (fun ret last events => earlier ⊆ events ∧
        (ret = 0 → Signed globals last advices sighash events))
      (signSettlement advices sighash) globals earlier := by
  simp only [signSettlement, wp_bind, wp_get]
  cases hwallet : globals.depositWallet with
  | none => exact wp_deref_none.mpr trivial
  | some wallet =>
    rw [wp_deref_some]
    cases hadvice : advices.head? with
    | none => exact wp_deref_none.mpr trivial
    | some advice =>
      simp only [wp_deref_some, wp_recording_issue, wp_modify, wp_ite, wp_pure]
      refine ⟨trivial, fun signature => ?_⟩
      cases signature with
      | none => exact ⟨fun _ => ⟨by simp, fun h => absurd h efault_error⟩, fun h => absurd rfl h⟩
      | some signature =>
        refine ⟨(fun h => by cases h), fun _ => ⟨by simp, fun _ => ?_⟩⟩
        exact ⟨wallet, advice, signature, hwallet, hadvice, by simp, rfl⟩

/-- What the arrays and the payouts lead to. -/
structure Issued (build : Build) (globals last : Globals) (merklePaths : Bytes)
    (memo : FixedBytes 512) (collected : Collected) (payouts : List Nat) (settlement : Pointer)
    (sighash txid : Digest) (events : List (Event (Call Callback))) : Prop where
  created : .answered (.zcashCreateTransaction collected.depositTransactions
    (operatorPayout build (collected.depositAmounts.headD 0) :: payouts) collected.payoutAddresses
    collected.advices merklePaths memo) (some settlement) ∈ events
  hashed : .answered (.zcashHashTransaction settlement) (sighash, txid) ∈ events
  signed : Signed { globals with unauthorizedSettlement := some settlement } last
    collected.advices sighash events

theorem issueSettlement_issues {memo : FixedBytes 512} {collected : Collected}
    {evaluation : Evaluation} {contributions : List Contribution}
    (hop : op = .ecallClearContract context payoutAddress collateralTransaction merklePaths)
    (hstate : before.state = .initialized)
    (hcontributed : List.Forall₂ (Contribution.From before.players earlier)
      (List.range dep.build.numPlayers) contributions)
    (hdeposits : collected.rawDepositTransactions.map Buffer.contents =
      contributions.map Contribution.depositTransaction) :
    wp (recording (Releases dep op before))
      (fun ret last events => earlier ⊆ events ∧ (ret = 0 → ∃ settlement sighash txid,
        Issued dep.build globals last merklePaths memo collected evaluation.payouts settlement
          sighash txid events))
      (issueSettlement dep.build context collateralTransaction merklePaths memo collected evaluation)
      globals earlier := by
  rw [issueSettlement, wp_bind, wp_recording_issue]
  refine ⟨trivial, fun settlement => ?_⟩
  rw [wp_bind, wp_modify]
  cases settlement with
  | none => exact ⟨by simp, fun h => absurd h efault_error⟩
  | some settlement =>
    rw [wp_bind, wp_recording_issue]
    refine ⟨trivial, fun hashes => ?_⟩
    obtain ⟨sighash, txid⟩ := hashes
    rw [wp_bind]
    have hsend : (sendClearContract sighash txid (evaluation.outputs.map Buffer.contents)
        (collateralTransaction :: collected.rawDepositTransactions.map Buffer.contents)
        (List.range dep.build.numPlayers)).Within Withheld
          ({ globals with unauthorizedSettlement := some settlement } = ·) :=
      sendClearContract_within withheld_of_internal (fun _ _ => trivial) _ _ _ _ _
    refine hsend.recorded releases_withheld rfl fun ret last sending hexec => ?_
    obtain rfl := hsend.kept hexec rfl
    rw [wp_ite]
    refine ⟨fun hret => ⟨by simp, fun h => absurd h hret⟩, fun _ => ?_⟩
    rw [wp_bind, hdeposits]
    refine wp_mono ?_ (outputDeposits_hands hop hstate
      (hcontributed.imp fun _ _ h => h.mono fun _ hmem => by simp [hmem]) (List.Subset.refl _))
    intro ret last events h
    obtain ⟨rfl, hevents⟩ := h
    have hearlier : earlier ⊆ events := fun _ hmem => hevents (by simp [hmem])
    rw [wp_ite]
    refine ⟨fun hret => ⟨hearlier, fun h => absurd h hret⟩, fun _ => ?_⟩
    refine wp_mono ?_ (signSettlement_signs collected.advices sighash)
    intro ret last later h
    obtain ⟨hlater, hsigned⟩ := h
    refine ⟨fun _ hmem => hlater (hearlier hmem), fun hret => ⟨settlement, sighash, txid, ?_⟩⟩
    exact ⟨hlater (hevents (by simp)), hlater (hevents (by simp)), hsigned hret⟩

/-- With every deposit collected. -/
theorem settle_issues (hpositive : 1 ≤ dep.build.numPlayers)
    (hplayers : dep.build.numPlayers < 2 ^ 31) {memo : FixedBytes 512} {collected : Collected}
    {contributions : List Contribution}
    (hop : op = .ecallClearContract context payoutAddress collateralTransaction merklePaths)
    (hstate : before.state = .initialized)
    (hcontributed : List.Forall₂ (Contribution.From before.players earlier)
      (List.range dep.build.numPlayers) contributions)
    (hdeposits : collected.rawDepositTransactions.map Buffer.contents =
      contributions.map Contribution.depositTransaction) :
    wp (recording (Releases dep op before))
      (fun result last events => earlier ⊆ events ∧
        (result.1 = 0 → ∃ (random : FixedBytes 4) (payouts : List Nat),
          .answered (.sgxReadRand 4) (some random) ∈ events ∧
          (payouts = (List.range dep.build.numPlayers).map fun i =>
            if i = leValue random.val % dep.build.numPlayers then
              collected.depositAmounts.tail.sum % 2 ^ 64
            else 0) ∧
          ∃ settlement sighash txid, Issued dep.build globals last merklePaths memo collected
            payouts settlement sighash txid events))
      (settle dep.build context collateralTransaction merklePaths memo collected) globals
      earlier := by
  rw [settle, wp_bind]
  have hinternal : (evaluateFunctionality dep.build.numPlayers
      collected.depositAmounts.tail).Within Call.Internal (globals = ·) :=
    evaluateFunctionality_within _ _
  refine hinternal.recorded releases_internal rfl fun evaluation last events hexec => ?_
  obtain rfl := hinternal.kept hexec rfl
  have hevaluated := hexec.taped (Lottery.evaluateFunctionality_spec hpositive hplayers _)
  rw [wp_ite]
  constructor
  · exact fun hret => ⟨List.subset_append_left _ _, fun h => absurd h hret⟩
  · intro hret
    obtain ⟨random, hrandom, hdrawn⟩ := hevaluated (not_not.mp hret)
    rw [wp_bind]
    refine wp_mono ?_ (issueSettlement_issues hop hstate
      (hcontributed.imp fun _ _ h => h.mono (List.subset_append_left _ _)) hdeposits)
    intro ret last later h
    obtain ⟨hlater, hissued⟩ := h
    obtain ⟨hearlier, hevents⟩ := List.append_subset.mp hlater
    refine ⟨hearlier, fun hzero => ?_⟩
    exact ⟨random, evaluation.payouts, hevents (List.mem_of_getElem? hrandom), hdrawn.payouts,
      hissued hzero⟩

theorem Composes.mono {build : Build} {events later : List (Event (Call Callback))}
    {composition : Composition}
    (h : Composes build globals payoutAddress collateralTransaction merklePaths events composition)
    (hlater : events ⊆ later) :
    Composes build globals payoutAddress collateralTransaction merklePaths later composition where
  operator := by
    obtain ⟨wallet, hwallet, hadvice, hcollateral, hsigned⟩ := h.operator
    exact ⟨wallet, hwallet, hlater hadvice, hlater hcollateral, hlater hsigned⟩
  payoutAddress := hlater h.payoutAddress
  transaction := hlater h.transaction
  covered := h.covered
  contributed := h.contributed.imp fun _ _ hfrom => hfrom.mono hlater
  pays := by
    obtain ⟨random, hrandom, hpayouts⟩ := h.pays
    exact ⟨random, hlater hrandom, hpayouts⟩
  memo := hlater h.memo
  created := hlater h.created
  hashed := hlater h.hashed

/-- A settlement that was composed, and is kept with the operator's signature. -/
def Keeps (build : Build) (before last : Globals)
    (payoutAddress collateralTransaction merklePaths : Bytes)
    (events : List (Event (Call Callback))) : Prop :=
  ∃ composition,
    Composes build before payoutAddress collateralTransaction merklePaths events composition ∧
    last.unauthorizedSettlement = some composition.settlement ∧
    last.operatorSignature = some composition.signature

theorem clearContract_keeps (hpositive : 1 ≤ dep.build.numPlayers)
    (hplayers : dep.build.numPlayers < 2 ^ 31)
    (hop : op = .ecallClearContract context payoutAddress collateralTransaction merklePaths)
    (hstate : before.state = .initialized) :
    wp (recording (Releases dep op before))
      (fun result last events => result.1 = 0 →
        Keeps dep.build before last payoutAddress collateralTransaction merklePaths events)
      (clearContract dep.build context payoutAddress collateralTransaction merklePaths)
      before [] := by
  rw [clearContract, wp_bind, wp_recording_issue]
  refine ⟨trivial, fun memo => ?_⟩
  rw [wp_bind, wp_recording_issue]
  refine ⟨trivial, fun address => ?_⟩
  cases address with
  | none => exact fun h => absurd h einval_error
  | some address =>
    simp only [wp_bind, wp_get]
    cases hwallet : before.depositWallet with
    | none => exact wp_deref_none.mpr trivial
    | some wallet =>
      rw [wp_deref_some, wp_recording_issue]
      refine ⟨trivial, fun advice => ?_⟩
      cases advice with
      | none => exact fun h => absurd h efault_error
      | some advice =>
        rw [wp_bind, wp_recording_issue]
        refine ⟨trivial, fun transaction => ?_⟩
        cases transaction with
        | none => exact fun h => absurd h einval_error
        | some transaction =>
          rw [wp_bind, wp_recording_issue]
          refine ⟨trivial, fun collateral => ?_⟩
          rw [wp_ite]
          refine ⟨fun _ h => absurd h einval_error, fun hcovered => ?_⟩
          rw [wp_bind]
          have hcollect : (collectDeposits dep.build (List.range dep.build.numPlayers)
              ⟨[address], [advice], [transaction], [collateral], [], [], []⟩).Within Withheld
                (before = ·) :=
            collectDeposits_within withheld_of_internal (fun _ => trivial) _ _ _
          refine hcollect.recorded releases_withheld rfl fun result last events hexec => ?_
          obtain ⟨rfl, hcollected⟩ :=
            hexec.taped (SettlementOffer.collectDeposits_collects _ _)
          rw [wp_ite]
          refine ⟨fun hret h => absurd h hret, fun hret => ?_⟩
          obtain ⟨contributions, hcollects, hcontributed⟩ := hcollected (not_not.mp hret)
          refine wp_mono ?_ (settle_issues hpositive hplayers hop hstate
            (hcontributed.imp fun _ _ h => h.mono (List.subset_append_right _ _))
            hcollects.rawDepositTransactions)
          intro settled last later h hzero
          obtain ⟨hlater, hissued⟩ := h
          obtain ⟨random, payouts, hrandom, hpayouts, settlement, sighash, txid, hissued⟩ :=
            hissued hzero
          obtain ⟨hcreated, hhashed, wallet', advice', signature, hwallet', hadvice', hsigned,
            rfl⟩ := hissued
          rw [hcollects.depositTransactions, hcollects.payoutAddresses, hcollects.advices,
            hcollects.depositAmounts] at hcreated
          rw [hcollects.depositAmounts] at hpayouts
          rw [hcollects.advices] at hadvice'
          cases hwallet.symm.trans hwallet'
          cases hadvice'
          refine ⟨⟨contributions, payouts, transaction, address, advice, collateral, memo,
            settlement, sighash, txid, signature⟩, ?_, rfl, rfl⟩
          constructor
          · exact ⟨wallet, hwallet, hlater (by simp), hlater (by simp), hsigned⟩
          · exact hlater (by simp)
          · exact hlater (by simp)
          · exact not_lt.mp hcovered
          · exact hcontributed.imp fun _ _ h => h.mono fun _ hmem => hlater (by simp [hmem])
          · exact ⟨random, hrandom, hpayouts⟩
          · exact hlater (by simp)
          · exact hcreated
          · exact hhashed

theorem ecallClearContractImpl_keeps (hpositive : 1 ≤ dep.build.numPlayers)
    (hplayers : dep.build.numPlayers < 2 ^ 31)
    (hop : op = .ecallClearContract context payoutAddress collateralTransaction merklePaths)
    (hstate : before.state = .initialized) :
    wp (recording (Releases dep op before))
      (fun ret last events => ret = 0 →
        Keeps dep.build before last payoutAddress collateralTransaction merklePaths events)
      (ecallClearContractImpl dep.build context payoutAddress collateralTransaction merklePaths)
      before [] := by
  rw [ecallClearContractImpl, wp_bind]
  refine wp_mono ?_ (clearContract_keeps hpositive hplayers hop hstate)
  intro result last events hkeeps
  obtain ⟨ret, collected⟩ := result
  have hobjects : (releaseObjects collected (List.range (dep.build.numPlayers + 1))).Within
      Call.Internal (last = ·) := releaseObjects_within _ _
  have hbuffers : (freeBuffers collected (List.range dep.build.numPlayers)).Within
      Call.Internal (last = ·) := freeBuffers_within _ _
  rw [wp_bind]
  refine hobjects.recorded releases_internal rfl fun _ objects releasing hreleasing => ?_
  obtain rfl := hobjects.kept hreleasing rfl
  rw [wp_bind]
  refine hbuffers.recorded releases_internal rfl fun _ buffers freeing hfreeing => ?_
  obtain rfl := hbuffers.kept hfreeing rfl
  rw [wp_ite]
  constructor
  · intro hret
    simp only [wp_bind, wp_get]
    cases last.unauthorizedSettlement with
    | none => exact fun h => absurd h hret
    | some settlement => exact ⟨trivial, fun _ h => absurd h hret⟩
  · intro hret hzero
    obtain ⟨composition, hcomposes, hkept⟩ := hkeeps (not_not.mp hret)
    exact ⟨composition, hcomposes.mono fun _ hmem => by simp [hmem], hkept⟩

end ClearContract

section Finalize
variable {context : Pointer}

/-- When the loop ends with zero, every player has confirmed, in the order of the slots. -/
theorem collectSignatures_confirms (indices : List Nat) :
    wp tape (fun result last events => last = globals ∧ (result.1 = 0 → ∃ confirmations,
        result.2 = confirmations.map Confirmation.signature ∧
          List.Forall₂ (Confirmation.From globals.players events) indices confirmations))
      (collectSignatures indices) globals [] := by
  induction indices with
  | nil => exact ⟨rfl, fun _ => ⟨[], rfl, .nil⟩⟩
  | cons i rest ih =>
    simp only [collectSignatures, playerAt, wp_bind, wp_get]
    cases hplayer : globals.players[i]?.join with
    | none => exact wp_deref_none.mpr trivial
    | some player =>
      rw [wp_deref_some, wp_tape_issue]
      intro msg
      cases msg with
      | none => exact ⟨rfl, fun h => absurd h eio_error⟩
      | some msg =>
        simp only [wp_bind, wp_tape_issue, wp_ite, wp_pure]
        refine ⟨fun _ _ => ⟨trivial, fun h => absurd h eio_error⟩, fun htype signature _ => ?_⟩
        cases signature with
        | none => exact ⟨rfl, fun h => absurd h einval_error⟩
        | some signature =>
          simp only [wp_bind]
          refine wp_tape_from ih ?_
          intro result last events h
          obtain ⟨rfl, hrest⟩ := h
          refine ⟨rfl, fun hzero => ?_⟩
          obtain ⟨confirmations, hsignatures, hfrom⟩ := hrest hzero
          refine ⟨⟨msg, signature⟩ :: confirmations, congrArg (signature :: ·) hsignatures, .cons ?_ ?_⟩
          · exact ⟨⟨player, hplayer, by simp⟩, not_not.mp htype, by simp⟩
          · exact hfrom.imp fun _ _ hconfirmation => ⟨by
              obtain ⟨other, hother, hreceived⟩ := hconfirmation.received
              exact ⟨other, hother, List.mem_append_right _ hreceived⟩,
              hconfirmation.msgType, List.mem_append_right _ hconfirmation.signature⟩

/-- The settlement is handed out, or an error is returned. -/
theorem authorizeSettlement_hands {operatorSignature : Pointer}
    {confirmations : List Confirmation} (hop : op = .ecallFinalize context)
    (hstate : before.state = .clearedContract) (hsignature : before.operatorSignature =
      some operatorSignature)
    (hconfirmed : List.Forall₂ (Confirmation.From before.players earlier)
      (List.range dep.build.numPlayers) confirmations) (hquiet : Unsettled earlier) :
    wp (recording (Releases dep op before))
      (fun result _ events => result.1 ≠ 0 → Unsettled events)
      (authorizeSettlement context (operatorSignature :: confirmations.map Confirmation.signature))
      before earlier := by
  simp only [authorizeSettlement, wp_bind, wp_get]
  cases hsettlement : before.unauthorizedSettlement with
  | none => exact wp_deref_none.mpr trivial
  | some unauthorized =>
    rw [wp_deref_some, wp_recording_issue]
    refine ⟨trivial, fun authorized => ?_⟩
    rw [wp_modify]
    cases authorized with
    | none => exact fun _ => hquiet.call rfl
    | some authorized =>
      simp only [zcashExportTransaction, zcashExport, wp_bind, wp_recording_issue]
      refine ⟨trivial, fun length => ⟨trivial, fun address => ?_⟩⟩
      cases address with
      | none => exact fun _ => ((hquiet.call rfl).call rfl).call rfl
      | some address =>
        simp only [wp_bind, wp_recording_issue, wp_pure]
        refine ⟨trivial, fun raw => ⟨⟨hop, hstate, ?_⟩, fun _ h => absurd rfl h⟩⟩
        refine ⟨operatorSignature, unauthorized, authorized, confirmations, length, hsignature,
          hsettlement, ?_, by simp, raw, by simp, rfl⟩
        refine hconfirmed.imp fun _ _ h => ⟨?_, h.msgType, by simp [h.signature]⟩
        obtain ⟨player, hplayer, hreceived⟩ := h.received
        exact ⟨player, hplayer, by simp [hreceived]⟩

theorem ecallFinalizeImpl_hands (hop : op = .ecallFinalize context)
    (hstate : before.state = .clearedContract) :
    wp (recording (Releases dep op before)) (fun ret _ events => ret ≠ 0 → Unsettled events)
      (ecallFinalizeImpl dep.build context) before [] := by
  have hrelease : ∀ signatures : List Pointer, (releaseSignatures signatures).Within Withheld
      fun _ => True := fun signatures =>
    (releaseSignatures_within signatures).mono withheld_of_internal
  rw [ecallFinalizeImpl, wp_bind]
  have hcollect : (collectSignatures (List.range dep.build.numPlayers)).Within Withheld
      (before = ·) := collectSignatures_within withheld_of_internal (fun _ => trivial) _
  refine hcollect.recorded releases_withheld rfl fun result last events hexec => ?_
  obtain ⟨rfl, hconfirmed⟩ := hexec.taped (collectSignatures_confirms _)
  have hquiet : Unsettled events := unsettled_of_exec hcollect hexec rfl
  obtain ⟨ret, signatures⟩ := result
  rw [wp_ite]
  constructor
  · intro _
    rw [wp_bind]
    refine (hrelease signatures).recorded releases_withheld trivial fun _ last later hexec _ => ?_
    exact hquiet.append (unsettled_of_exec (hrelease signatures) hexec trivial)
  · intro hret
    simp only [wp_bind, wp_get]
    cases hsignature : last.operatorSignature with
    | none => exact wp_deref_none.mpr trivial
    | some operatorSignature =>
      obtain ⟨confirmations, hsignatures, hfrom⟩ := hconfirmed (not_not.mp hret)
      have hsignatures : signatures = confirmations.map Confirmation.signature := hsignatures
      rw [wp_deref_some, hsignatures]
      refine wp_mono ?_ (authorizeSettlement_hands hop hstate hsignature hfrom hquiet)
      intro authorized final events hfinal
      refine (hrelease _).recorded releases_withheld trivial fun _ last later hexec => ?_
      have hlater := unsettled_of_exec (hrelease _) hexec trivial
      split
      · simp only [wp_bind, wp_recording_issue, wp_pure]
        exact ⟨trivial, fun _ h => ((hfinal h).append hlater).call rfl⟩
      · exact fun h => (hfinal h).append hlater

end Finalize

theorem ecallRefundImpl_hands {context : Pointer} {blocks : Bytes}
    (hop : op = .ecallRefund context blocks) (hstate : before.state ≠ .finalized) :
    wp (recording (Releases dep op before)) (fun _ _ _ => True)
      (ecallRefundImpl dep context blocks) before [] := by
  cases hchain : chainError dep.build.refundDelayBlocks
      (Blocks.zcashBlocksSinceCheckpoint dep.crates dep.build blocks) with
  | some error =>
    rw [ecallRefundImpl_refused hchain]
    trivial
  | none =>
    simp only [ecallRefundImpl, hchain, zcashExportKey, wp_bind, wp_get]
    cases hwallet : before.depositWallet with
    | none => exact wp_deref_none.mpr trivial
    | some wallet =>
      rw [wp_deref_some]
      refine zcashExport_recorded releases_internal trivial fun key events hexported => ?_
      cases key with
      | error ret => trivial
      | ok key =>
        simp only [wp_bind, wp_recording_issue, wp_pure]
        refine ⟨?_, fun _ => ⟨trivial, fun _ => trivial⟩⟩
        exact ⟨⟨blocks, hop, ChainEvidence.aged_of_count hchain⟩, hstate, wallet, hwallet,
          hexported⟩

/-- What is known of an ECALL that has returned. -/
structure Left (dep : Deployment) (op : Ecall) (before : Globals) (ret : Int32) (last : Globals)
    (events : List (Event (Call Callback))) : Prop where
  initialized : (∃ context, op = .ecallInitialize context) →
    before.state = .uninitialized ∧ Leaves last events ∨ ret ≠ 0 ∧ last = before
  cleared : ∀ context payoutAddress collateralTransaction merklePaths,
    op = .ecallClearContract context payoutAddress collateralTransaction merklePaths →
      before.state = .initialized → ret = 0 →
        Keeps dep.build before last payoutAddress collateralTransaction merklePaths events
  settlement : before.state = .clearedContract → last.state = .clearedContract →
    last.unauthorizedSettlement = before.unauthorizedSettlement ∧
      last.operatorSignature = before.operatorSignature
  finalized : (∃ context, op = .ecallFinalize context) → ret ≠ 0 → Unsettled events

theorem ecallConnectToPlayer_hands (context : Pointer) :
    wp (recording (Releases dep (.ecallConnectToPlayer context) before))
      (Left dep (.ecallConnectToPlayer context) before) (ecallConnectToPlayer dep context)
      before [] := by
  have hwithheld : ∀ {β : Type} (c : Call Callback β), SettlementOffer.Connecting c → Withheld c := by
    intro β c hc
    cases c with
    | callback => exact absurd hc id
    | _ => trivial
  have hwithin : (ecallConnectToPlayer dep context).Within Withheld (SetupOnly before) :=
    (SettlementOffer.ecallConnectToPlayer_connecting context).mono hwithheld
  refine hwithin.recorded releases_withheld ⟨_, _, _, _, _, rfl⟩ fun ret last events hexec => ?_
  obtain ⟨_, _, _, _, _, rfl⟩ := hwithin.kept hexec ⟨_, _, _, _, _, rfl⟩
  exact ⟨by simp, by simp, fun _ _ => ⟨rfl, rfl⟩, by simp⟩

theorem ecallInitialize_hands (context : Pointer) :
    wp (recording (Releases dep (.ecallInitialize context) before))
      (Left dep (.ecallInitialize context) before) (ecallInitialize context) before [] := by
  simp only [ecallInitialize, setState, wp_bind, wp_get, wp_ite, wp_pure, wp_modify]
  constructor
  · intro _
    exact ⟨fun _ => .inr ⟨einval_error, rfl⟩, by simp, fun _ _ => ⟨rfl, rfl⟩, by simp⟩
  · intro hstate
    have hstate := not_not.mp hstate
    have hother : before.state ≠ .clearedContract := by simp [hstate]
    refine wp_mono ?_ (ecallInitializeImpl_hands context hstate)
    intro ret last events hleaves
    constructor
    · intro _
      exact ⟨fun _ => .inl ⟨hstate, hleaves⟩, by simp, fun h => absurd h hother, by simp⟩
    · intro _
      exact ⟨fun _ => .inl ⟨hstate, hleaves⟩, by simp, fun h => absurd h hother, by simp⟩

theorem ecallClearContract_hands (hpositive : 1 ≤ dep.build.numPlayers)
    (hplayers : dep.build.numPlayers < 2 ^ 31) (context : Pointer)
    (payoutAddress collateralTransaction merklePaths : Bytes) :
    wp (recording (Releases dep
        (.ecallClearContract context payoutAddress collateralTransaction merklePaths) before))
      (Left dep (.ecallClearContract context payoutAddress collateralTransaction merklePaths) before)
      (ecallClearContract dep context payoutAddress collateralTransaction merklePaths)
      before [] := by
  simp only [ecallClearContract, setState, wp_bind, wp_get, wp_ite, wp_pure, wp_modify]
  constructor
  · intro hstate
    exact ⟨by simp, fun _ _ _ _ _ h => absurd h hstate, fun _ _ => ⟨rfl, rfl⟩, by simp⟩
  · intro hstate
    have hstate := not_not.mp hstate
    refine wp_mono ?_ ((ecallClearContractImpl_within context payoutAddress collateralTransaction
      merklePaths).wp_kept ⟨_, _, rfl⟩ (ecallClearContractImpl_keeps hpositive hplayers rfl hstate))
    intro ret last events h
    obtain ⟨⟨_, _, rfl⟩, hkeeps⟩ := h
    refine ⟨by simp, ?_, fun h => absurd h (by simp [hstate]), by simp⟩
    intro _ _ _ _ hop _ hret
    cases hop
    exact hkeeps hret

theorem ecallFinalize_hands (context : Pointer) :
    wp (recording (Releases dep (.ecallFinalize context) before))
      (Left dep (.ecallFinalize context) before) (ecallFinalize dep context) before [] := by
  simp only [ecallFinalize, setState, wp_bind, wp_get, wp_ite, wp_pure, wp_modify]
  constructor
  · intro _
    exact ⟨by simp, by simp, fun _ _ => ⟨rfl, rfl⟩, fun _ _ => rfl⟩
  · intro hstate
    refine wp_mono ?_ ((ecallFinalizeImpl_within context).wp_kept ⟨_, _, rfl⟩
      (ecallFinalizeImpl_hands rfl (not_not.mp hstate)))
    intro ret last events h
    obtain ⟨⟨_, _, rfl⟩, hquiet⟩ := h
    refine ⟨by simp, by simp, fun _ h => absurd h ?_, fun _ => hquiet⟩
    by_cases hret : ret = 0
    · simp [hret]
    · simp [hret]

theorem ecallRefund_hands (context : Pointer) (blocks : Bytes) :
    wp (recording (Releases dep (.ecallRefund context blocks) before))
      (Left dep (.ecallRefund context blocks) before) (ecallRefund dep context blocks)
      before [] := by
  simp only [ecallRefund, setState, wp_bind, wp_get, wp_ite, wp_pure, wp_modify]
  constructor
  · intro _
    exact ⟨by simp, by simp, fun _ _ => ⟨rfl, rfl⟩, by simp⟩
  · intro hstate
    refine wp_mono ?_ ((ecallRefundImpl_sends dep context blocks).wp_kept rfl
      (ecallRefundImpl_hands rfl hstate))
    intro ret last events h
    obtain ⟨rfl, -⟩ := h
    exact ⟨fun _ => ⟨by simp, by simp, fun _ _ => ⟨rfl, rfl⟩, by simp⟩,
      fun _ => ⟨by simp, by simp, fun _ _ => ⟨rfl, rfl⟩, by simp⟩⟩

theorem handle_hands (hpositive : 1 ≤ dep.build.numPlayers)
    (hplayers : dep.build.numPlayers < 2 ^ 31) (op : Ecall) :
    wp (recording (Releases dep op before)) (Left dep op before) (handle dep op) before [] := by
  cases op with
  | ecallConnectToPlayer context => exact ecallConnectToPlayer_hands context
  | ecallInitialize context => exact ecallInitialize_hands context
  | ecallClearContract context payoutAddress collateralTransaction merklePaths =>
    exact ecallClearContract_hands hpositive hplayers context payoutAddress collateralTransaction
      merklePaths
  | ecallFinalize context => exact ecallFinalize_hands context
  | ecallRefund context blocks => exact ecallRefund_hands context blocks

/-- Only initialization touches the wallet. -/
theorem handle_wallet (hother : ¬ ∃ context, op = .ecallInitialize context) :
    wp ({} : Monitor (Call Callback) Globals Unit)
      (fun _ last _ => last.depositWallet = before.depositWallet) (handle dep op) before () := by
  cases op with
  | ecallInitialize context => exact absurd ⟨context, rfl⟩ hother
  | ecallConnectToPlayer context =>
    refine (ecallConnectToPlayer_permitted context).watched (fun _ _ _ _ => trivial)
      ⟨_, _, _, _, _, rfl⟩ fun _ last _ hlast => ?_
    obtain ⟨_, _, _, _, _, rfl⟩ := hlast
    rfl
  | ecallClearContract context payoutAddress collateralTransaction merklePaths =>
    simp only [handle, ecallClearContract, setState, wp_bind, wp_get, wp_ite, wp_pure, wp_modify]
    refine ⟨fun _ => trivial, fun _ => ?_⟩
    refine (ecallClearContractImpl_within context _ _ _).watched (fun _ _ _ _ => trivial)
      ⟨_, _, rfl⟩ fun _ last _ hlast => ?_
    obtain ⟨_, _, rfl⟩ := hlast
    rfl
  | ecallFinalize context =>
    simp only [handle, ecallFinalize, setState, wp_bind, wp_get, wp_ite, wp_pure, wp_modify]
    refine ⟨fun _ => trivial, fun _ => ?_⟩
    refine (ecallFinalizeImpl_within context).watched (fun _ _ _ _ => trivial)
      ⟨_, _, rfl⟩ fun _ last _ hlast => ?_
    obtain ⟨_, _, rfl⟩ := hlast
    rfl
  | ecallRefund context blocks =>
    simp only [handle, ecallRefund, setState, wp_bind, wp_get, wp_ite, wp_pure, wp_modify]
    refine ⟨fun _ => trivial, fun _ => ?_⟩
    refine (ecallRefundImpl_sends dep context blocks).watched (fun _ _ _ _ => trivial) rfl
      fun _ last _ hlast => ?_
    rw [← hlast]
    exact ⟨fun _ => rfl, fun _ => rfl⟩

end Ecalls

section Steps
variable {dep : Deployment} {step : Step (enclave dep)}

theorem wallet_kept (valid : step.Valid) (finished : step.result.isSome)
    (hother : ¬ ∃ context, step.op = Ecall.ecallInitialize context) :
    step.after.depositWallet = step.before.depositWallet := by
  obtain ⟨before, op, events, last, result⟩ := step
  obtain ⟨ret, rfl⟩ := Option.isSome_iff_exists.mp finished
  exact Exec.returned valid (handle_wallet hother)

variable (hpositive : 1 ≤ dep.build.numPlayers) (hplayers : dep.build.numPlayers < 2 ^ 31)
include hpositive hplayers

theorem left_of_valid (valid : step.Valid) {ret : Int32} (hret : step.result = some ret) :
    Left dep step.op step.before ret step.after step.events := by
  obtain ⟨before, op, events, last, result⟩ := step
  cases hret
  exact Exec.recorded valid (handle_hands hpositive hplayers op)

/-- What a step hands out it may hand out. -/
theorem handed_of_valid (valid : step.Valid) {output : Callback}
    {mid rest : List (Event (Call Callback))}
    (hevents : step.events = mid ++ .issued (.callback output) :: rest) :
    Handed dep step.op step.before mid output := by
  obtain ⟨before, op, events, last, result⟩ := step
  exact Exec.demanded valid (handle_hands hpositive hplayers op) hevents

end Steps

section Runs
variable {dep : Deployment}

/-- The settlement has been handed out. -/
def Settles (step : Step (enclave dep)) : Prop :=
  ∃ context settlement, .issued (.callback (.ocallFinalize context settlement)) ∈ step.events

/-- Where the wallet and the settlement come from, and what a settlement leads to. -/
structure Inv (steps : List (Step (enclave dep))) (globals : Globals) : Prop where
  backed : Backed steps globals
  settled : ∀ step ∈ steps, Settles step → globals.state = .finalized

theorem Handed.unsettled {op : Ecall} {before : Globals} {events : List (Event (Call Callback))}
    {output : Callback} (h : Handed dep op before events output) : before.state ≠ .finalized := by
  intro hfinalized
  cases output with
  | ocallInitialize context depositAddress => cases hfinalized.symm.trans h.2.1
  | ocallClearContract context depositTransaction => cases hfinalized.symm.trans h.2.1
  | ocallFinalize context settlement => cases hfinalized.symm.trans h.2.1
  | ocallRefund context depositKey => exact h.2.1 hfinalized

theorem Unsettled.not_settles {step : Step (enclave dep)} (h : Unsettled step.events) :
    ¬ Settles step := by
  intro hsettles
  obtain ⟨context, settlement, hissued⟩ := hsettles
  have hany := List.any_eq_false.mp h _ hissued
  exact hany rfl

theorem nextState_finalized (op : Ecall) (ret : Int32) :
    nextState .finalized op ret = .finalized := by
  cases op with
  | _ => simp [nextState]

section Steps
variable {steps : List (Step (enclave dep))} {step : Step (enclave dep)}

theorem Announced.append {wallet : Wallet} (h : Announced steps wallet) :
    Announced (steps ++ [step]) wallet := by
  obtain ⟨init, hinit, hmade⟩ := h
  exact ⟨init, List.mem_append_left _ hinit, hmade⟩

variable (hpositive : 1 ≤ dep.build.numPlayers) (hplayers : dep.build.numPlayers < 2 ^ 31)
include hpositive hplayers

theorem step_announced (h : Inv steps step.before) (valid : step.Valid) {ret : Int32}
    (hret : step.result = some ret) {wallet : Wallet}
    (hwallet : step.after.depositWallet = some wallet) : Announced (steps ++ [step]) wallet := by
  have hleft := left_of_valid hpositive hplayers valid hret
  by_cases hinitialize : ∃ context, step.op = Ecall.ecallInitialize context
  · rcases hleft.initialized hinitialize with ⟨_, hleaves⟩ | ⟨_, hsame⟩
    · exact ⟨step, by simp, hleaves wallet hwallet⟩
    · rw [hsame] at hwallet
      exact (h.backed.depositWallet wallet hwallet).append
  · rw [wallet_kept valid (by rw [hret]; rfl) hinitialize] at hwallet
    exact (h.backed.depositWallet wallet hwallet).append

theorem step_composed (h : Inv steps step.before) (valid : step.Valid) {ret : Int32}
    (hret : step.result = some ret) (hcleared : step.after.state = .clearedContract) :
    Composed (steps ++ [step]) step.after := by
  have hleft := left_of_valid hpositive hplayers valid hret
  have hmoved := SettlementOffer.step_moved valid hret
  rw [hmoved.state] at hcleared
  rcases SettlementOffer.clears_of_nextState hcleared with hbefore | ⟨rfl, hstate, hop⟩
  · obtain ⟨clear, hclear, context, payoutAddress, collateralTransaction, merklePaths, composition,
      hop, hcomposes, hsettlement, hsignature, hwallet⟩ := h.backed.settlement hbefore
    obtain ⟨hkept, hsigned⟩ := hleft.settlement hbefore (hmoved.state.trans hcleared)
    refine ⟨clear, List.mem_append_left _ hclear, context, payoutAddress, collateralTransaction,
      merklePaths, composition, hop, hcomposes, hkept.trans hsettlement, hsigned.trans hsignature, ?_⟩
    by_cases hinitialize : ∃ context, step.op = Ecall.ecallInitialize context
    · rcases hleft.initialized hinitialize with ⟨hother, _⟩ | ⟨_, hsame⟩
      · cases hbefore.symm.trans hother
      · rw [hsame]
        exact hwallet
    · exact (wallet_kept valid (by rw [hret]; rfl) hinitialize).trans hwallet
  · obtain ⟨context, payoutAddress, collateralTransaction, merklePaths, hop⟩ := hop
    obtain ⟨composition, hcomposes, hsettlement, hsignature⟩ :=
      hleft.cleared context payoutAddress collateralTransaction merklePaths hop hstate rfl
    refine ⟨step, by simp, context, payoutAddress, collateralTransaction, merklePaths, composition,
      hop, hcomposes, hsettlement, hsignature, wallet_kept valid (by rw [hret]; rfl) ?_⟩
    intro hinitialize
    obtain ⟨other, hother⟩ := hinitialize
    cases hop.symm.trans hother

/-- A call that has handed out the settlement succeeds. -/
theorem step_settled (h : Inv steps step.before) (valid : step.Valid) {ret : Int32}
    (hret : step.result = some ret) {settle : Step (enclave dep)} (hsettle : settle ∈ steps ++ [step])
    (hsettles : Settles settle) : step.after.state = .finalized := by
  have hmoved := SettlementOffer.step_moved valid hret
  rw [hmoved.state]
  rcases List.mem_append.mp hsettle with hsettle | hsettle
  · rw [h.settled settle hsettle hsettles]
    exact nextState_finalized _ _
  · rw [List.mem_singleton.mp hsettle] at hsettles
    obtain ⟨context, settlement, hissued⟩ := id hsettles
    obtain ⟨mid, rest, hevents⟩ := List.append_of_mem hissued
    obtain ⟨hop, hstate, -⟩ := handed_of_valid hpositive hplayers valid hevents
    have hleft := left_of_valid hpositive hplayers valid hret
    have hzero : ret = 0 := by
      by_contra hfailed
      exact (hleft.finalized ⟨context, hop⟩ hfailed).not_settles hsettles
    rw [hop, hstate, hzero]
    rfl

theorem step_inv (h : Inv steps step.before) (valid : step.Valid) (finished : step.result.isSome) :
    Inv (steps ++ [step]) step.after := by
  obtain ⟨ret, hret⟩ := Option.isSome_iff_exists.mp finished
  constructor
  · constructor
    · exact fun _ hwallet => step_announced hpositive hplayers h valid hret hwallet
    · exact step_composed hpositive hplayers h valid hret
  · exact fun _ hsettle => step_settled hpositive hplayers h valid hret hsettle

end Steps

theorem inv_initial : Inv ([] : List (Step (enclave dep))) (initial dep) where
  backed := ⟨fun _ hwallet => by simp [initial] at hwallet, fun h => by simp [initial] at h⟩
  settled _ hstep := absurd hstep List.not_mem_nil

section Releases
variable {steps : List (Step (enclave dep))} {last : Globals}
variable (hpositive : 1 ≤ dep.build.numPlayers) (hplayers : dep.build.numPlayers < 2 ^ 31)
variable (trace : Trace (enclave dep) (initial dep) steps last)
include hpositive hplayers trace

theorem trace_inv :
    Throughout (fun earlier step => Inv earlier step.before ∧ step.Valid ∧ True) steps :=
  trace.throughout (fun _ _ _ _ => trivial) inv_initial
    fun _ _ hinv valid finished _ => step_inv hpositive hplayers hinv valid finished

/-- After the settlement nothing is handed out. -/
theorem quiet_after {earlier later : List (Step (enclave dep))} {step : Step (enclave dep)}
    (hsplit : steps = earlier ++ step :: later) (hsettles : Settles step)
    {other : Step (enclave dep)} (hother : other ∈ later) (output : Callback) :
    .issued (.callback output) ∉ other.events := by
  intro hissued
  obtain ⟨between, others, rfl⟩ := List.append_of_mem hother
  obtain ⟨hinv, valid, -⟩ := trace_inv hpositive hplayers trace (earlier ++ step :: between) other
    others (by simp [hsplit])
  obtain ⟨mid, rest, hevents⟩ := List.append_of_mem hissued
  exact (handed_of_valid hpositive hplayers valid hevents).unsettled
    (hinv.settled step (by simp) hsettles)

end Releases

/-- In every run, whatever the operator's enclave hands out was made or received before in it, and
is handed out in its state and on its evidence; the settlement is composed from what every
player has sent, and signed by all. After it nothing is handed out any more. -/
theorem operator_releases (dep : Deployment) (hpositive : 1 ≤ dep.build.numPlayers)
    (hplayers : dep.build.numPlayers < 2 ^ 31) {steps : List (Step (enclave dep))} {last : Globals}
    (trace : Trace (enclave dep) (initial dep) steps last)
    {earlier later : List (Step (enclave dep))} {step : Step (enclave dep)}
    (hsplit : steps = earlier ++ step :: later) {output : Callback}
    {mid rest : List (Event (Call Callback))}
    (hevents : step.events = mid ++ .issued (.callback output) :: rest) :
    Handed dep step.op step.before mid output ∧ Backed earlier step.before ∧
      ∀ other ∈ later, Settles step → ∀ output, .issued (.callback output) ∉ other.events := by
  obtain ⟨hinv, valid, -⟩ := trace_inv hpositive hplayers trace earlier step later hsplit
  refine ⟨handed_of_valid hpositive hplayers valid hevents, hinv.backed, ?_⟩
  exact fun _ hother hsettles => quiet_after hpositive hplayers trace hsplit hsettles hother

end Runs

section Examples

/-- The contract that is played hands out a settlement. -/
theorem settles_played : ∃ earlier step later, contractSteps = earlier ++ step :: later ∧
    ∃ mid rest context settlement, step.events =
      mid ++ .issued (.callback (.ocallFinalize context settlement)) :: rest := by
  have hplayed : contractSteps.any
      (fun step => step.events.any (issues releasesSettlement)) = true := by decide +kernel
  obtain ⟨step, hstep, hsettles⟩ := List.any_eq_true.mp hplayed
  obtain ⟨event, hevent, hkind⟩ := List.any_eq_true.mp hsettles
  obtain ⟨earlier, later, hsplit⟩ := List.append_of_mem hstep
  obtain ⟨mid, rest, hevents⟩ := List.append_of_mem hevent
  refine ⟨earlier, step, later, hsplit, mid, rest, ?_⟩
  cases event with
  | answered c answer => cases hkind
  | issued c =>
    cases c with
    | callback output =>
      cases output with
      | ocallFinalize context settlement => exact ⟨context, settlement, hevents⟩
      | _ => cases hkind
    | _ => cases hkind

theorem operator_releases_played : ∃ (earlier : List (Step (enclave zeroDeployment)))
    (globals : Globals) (events : List (Event (Call Callback))) (settlement : Bytes),
      Authorizes zeroDeployment.build globals events settlement ∧ Composed earlier globals := by
  obtain ⟨earlier, step, later, hsplit, mid, rest, context, settlement, hevents⟩ := settles_played
  obtain ⟨⟨-, hstate, hauthorizes⟩, hbacked, -⟩ := operator_releases zeroDeployment (by decide)
    (by decide) (.resting contractSteps_run) hsplit hevents
  exact ⟨earlier, step.before, mid, settlement, hauthorizes, hbacked.settlement hstate⟩

end Examples

end Auntie.Guarantees.OperatorReleases

import Auntie.Source.Operator.Entry
import Auntie.Source.Player.Entry

/-!
# Deposits decoded by the operator

A player's enclave sends its deposit transaction, its input, its payout address and its
advice in one payload. The operator's enclave decodes every part but the input from where
the player put it. The input it takes from the payout address on, so it gets the player's
only if that is how the payout address and the advice begin.
-/

namespace Auntie.Guarantees.DepositDecoding
open Auntie.Source Auntie.Interaction Segments

/-- What one player deposits. -/
structure Deposit where
  depositAmount : Nat
  depositTransaction : Bytes
  input : Bytes
  payoutAddress : FixedBytes 43
  advice : FixedBytes 128
  depositAmount_lt : depositAmount < 2 ^ 64

namespace Deposit
variable (deposit : Deposit)

def payload : Bytes :=
  DepositAndInput.encode deposit.depositAmount deposit.depositTransaction deposit.input
    deposit.payoutAddress.val deposit.advice.val

def message : Message := .ofPayload msgDepositAndInput deposit.payload

def parts : List Bytes :=
  [deposit.depositTransaction, deposit.input, deposit.payoutAddress.val, deposit.advice.val]

theorem payload_eq : deposit.payload = leBytes 8 deposit.depositAmount ++
    (offsetsFrom 0 deposit.parts).flatMap (fun offset => leBytes 4 offset) ++
    deposit.parts.flatten := by
  simp [payload, DepositAndInput.encode, parts]

theorem payload_length : deposit.payload.length = 195 +
    deposit.depositTransaction.length + deposit.input.length := by
  have htable := table_length (leBytes 4) (leBytes_length 4) (offsetsFrom 0 deposit.parts)
  rw [payload_eq, List.length_append, List.length_append, htable]
  simp [parts, deposit.payoutAddress.property, deposit.advice.property]
  omega

end Deposit

section Readers
variable {msg : ReceivedMessage} {deposit : Deposit} (h : msg.payload = deposit.payload)
include h

/-- The offset of a part, read from the header. -/
theorem readU32_offset (i : Nat) (hi : i < 4) :
    msg.readU32 (8 + 4 * i) = (deposit.parts.take i).flatten.length := by
  have hsize := msg.size_lt
  have hparts := offset_le deposit.parts i
  have htable : i < (offsetsFrom 0 deposit.parts).length := by simpa [Deposit.parts] using hi
  have hentry := cut_entry (leBytes 4) (leBytes_length 4) _ i htable
  rw [h, Deposit.payload_eq, List.length_append] at hsize
  rw [offsetsFrom_getElem, Nat.zero_add] at hentry
  rw [ReceivedMessage.readU32, ReceivedMessage.read_part (h.trans deposit.payload_eq)
    (leBytes_length 8 _), hentry, leValue_leBytes, Nat.mod_eq_of_lt (by omega)]
  rw [table_length _ (leBytes_length 4), offsetsFrom_length]
  simp only [Deposit.parts, List.length_cons, List.length_nil]
  omega

/-- A range of the data. -/
theorem data_eq {offset length : Nat} (hinside : offset + length ≤ deposit.parts.flatten.length) :
    DepositAndInput.data msg offset length = (deposit.parts.flatten.drop offset).take length := by
  have hpayload := h.trans (deposit.payload_eq.trans (List.append_nil _).symm)
  refine ReceivedMessage.read_part hpayload ?_ hinside
  rw [List.length_append, table_length _ (leBytes_length 4)]
  simp [Deposit.parts]

/-- A part is read from where the player put it. -/
theorem data_part (i : Nat) (hi : i < deposit.parts.length) :
    DepositAndInput.data msg (deposit.parts.take i).flatten.length deposit.parts[i].length =
      deposit.parts[i] := by
  have hend := offset_succ deposit.parts i hi
  have hlast := offset_le deposit.parts (i + 1)
  rw [data_eq h (by omega), cut_segment]

theorem depositAmount_eq : DepositAndInput.depositAmount msg = deposit.depositAmount := by
  have hpayload : msg.payload = [] ++ leBytes 8 deposit.depositAmount ++
      ((offsetsFrom 0 deposit.parts).flatMap (fun offset => leBytes 4 offset) ++
        deposit.parts.flatten) := by
    rw [h, Deposit.payload_eq, List.nil_append, List.append_assoc]
  have hread : msg.read (0 + 0) 8 = ((leBytes 8 deposit.depositAmount).drop 0).take 8 :=
    ReceivedMessage.read_part hpayload rfl (by simp)
  rw [List.drop_zero, List.take_of_length_le (by simp)] at hread
  rw [DepositAndInput.depositAmount, ReceivedMessage.readU64, hread, leValue_leBytes]
  exact Nat.mod_eq_of_lt deposit.depositAmount_lt

theorem depositTransactionOffset_eq : DepositAndInput.depositTransactionOffset msg = 0 :=
  readU32_offset h 0 (by decide)

theorem inputOffset_eq :
    DepositAndInput.inputOffset msg = deposit.depositTransaction.length :=
  (readU32_offset h 1 (by decide)).trans (by simp [Deposit.parts])

theorem payoutAddressOffset_eq : DepositAndInput.payoutAddressOffset msg =
    deposit.depositTransaction.length + deposit.input.length :=
  (readU32_offset h 2 (by decide)).trans (by simp [Deposit.parts])

theorem adviceOffset_eq : DepositAndInput.adviceOffset msg =
    deposit.depositTransaction.length + deposit.input.length + 43 :=
  (readU32_offset h 3 (by decide)).trans
    (by simp [Deposit.parts, deposit.payoutAddress.property, Nat.add_assoc])

theorem payload_size : msg.payload.length = 195 +
    deposit.depositTransaction.length + deposit.input.length := by
  rw [h, Deposit.payload_length]

theorem depositTransaction_eq :
    DepositAndInput.depositTransaction msg = deposit.depositTransaction := by
  have hsize := payload_size h
  have hlt := msg.size_lt
  rw [DepositAndInput.depositTransaction, depositTransactionOffset_eq h, inputOffset_eq h,
    sub32_of_le (Nat.zero_le _) (by omega)]
  exact data_part h 0 (by simp [Deposit.parts])

theorem inputLength_eq : DepositAndInput.inputLength msg = deposit.input.length := by
  have hsize := payload_size h
  have hlt := msg.size_lt
  rw [DepositAndInput.inputLength, payoutAddressOffset_eq h, inputOffset_eq h,
    sub32_of_le (by omega) (by omega)]
  omega

theorem payoutAddress_eq : DepositAndInput.payoutAddress msg = deposit.payoutAddress.val := by
  have hsize := payload_size h
  have hlt := msg.size_lt
  have hpart := data_part h 2 (by simp [Deposit.parts])
  rw [DepositAndInput.payoutAddress, payoutAddressOffset_eq h, adviceOffset_eq h,
    sub32_of_le (by omega) (by omega)]
  simpa [Deposit.parts, deposit.payoutAddress.property] using hpart

theorem advice_eq : DepositAndInput.advice msg = deposit.advice.val := by
  have hsize := payload_size h
  have hlt := msg.size_lt
  have hpart := data_part h 3 (by simp [Deposit.parts])
  have hsizeof : DepositAndInput.sizeof = 24 := rfl
  have hrest : sub64 msg.payload.length DepositAndInput.sizeof = msg.payload.length - 24 :=
    sub64_of_le (by omega) (by omega)
  have hlength : sub64 (msg.payload.length - 24) (DepositAndInput.adviceOffset msg) = 128 := by
    rw [adviceOffset_eq h, sub64_of_le (by omega) (by omega)]
    omega
  rw [DepositAndInput.advice, hrest, hlength, adviceOffset_eq h]
  simpa [Deposit.parts, deposit.payoutAddress.property, deposit.advice.property,
    Nat.add_assoc] using hpart

/-- The input is read from where the payout address starts. -/
theorem input_eq (hinside : deposit.input.length ≤ 171) : DepositAndInput.input msg =
    (deposit.payoutAddress.val ++ deposit.advice.val).take deposit.input.length := by
  have hstart : (deposit.parts.take 2).flatten.length =
      deposit.depositTransaction.length + deposit.input.length := by simp [Deposit.parts]
  have hrest : (deposit.parts.drop 2).flatten =
      deposit.payoutAddress.val ++ deposit.advice.val := by simp [Deposit.parts]
  have hend : deposit.depositTransaction.length + deposit.input.length + deposit.input.length ≤
      deposit.parts.flatten.length := by
    simp [Deposit.parts, deposit.payoutAddress.property, deposit.advice.property]
    omega
  rw [DepositAndInput.input, payoutAddressOffset_eq h, inputLength_eq h, data_eq h hend, ← hstart,
    drop_offset, hrest]

end Readers

section Message

/-- The byte ranges `ecall_clear_contract_impl` reads, each with its offset. -/
def ranges (msg : ReceivedMessage) : List (Nat × Nat) :=
  [(0, DepositAndInput.sizeof),
    (DepositAndInput.sizeof + DepositAndInput.depositTransactionOffset msg,
      (DepositAndInput.depositTransaction msg).length),
    (DepositAndInput.sizeof + DepositAndInput.payoutAddressOffset msg,
      (DepositAndInput.input msg).length),
    (DepositAndInput.sizeof + DepositAndInput.payoutAddressOffset msg,
      (DepositAndInput.payoutAddress msg).length),
    (DepositAndInput.sizeof + DepositAndInput.adviceOffset msg,
      (DepositAndInput.advice msg).length)]

def ReadsInside (msg : ReceivedMessage) : Prop :=
  ∀ range ∈ ranges msg, range.1 + range.2 ≤ msg.payload.length

/-- The operator's enclave finds in a message what a player put into it. -/
structure Decodes (msg : ReceivedMessage) (deposit : Deposit) : Prop where
  depositAmount : DepositAndInput.depositAmount msg = deposit.depositAmount
  depositTransaction : DepositAndInput.depositTransaction msg = deposit.depositTransaction
  input : DepositAndInput.input msg = deposit.input
  payoutAddress : DepositAndInput.payoutAddress msg = deposit.payoutAddress.val
  advice : DepositAndInput.advice msg = deposit.advice.val
  inside : ReadsInside msg

theorem decodes_iff {msg : ReceivedMessage} {deposit : Deposit}
    (h : msg.payload = deposit.payload) :
    Decodes msg deposit ↔ deposit.input <+: deposit.payoutAddress.val ++ deposit.advice.val := by
  have hsize := payload_size h
  have hsizeof : DepositAndInput.sizeof = 24 := rfl
  have hinputLength : (DepositAndInput.input msg).length = deposit.input.length := by
    rw [DepositAndInput.input, DepositAndInput.data, ReceivedMessage.read_length,
      inputLength_eq h]
  have hinside : ReadsInside msg ↔ deposit.input.length ≤ 171 := by
    simp only [ReadsInside, ranges, List.forall_mem_cons, depositTransactionOffset_eq h,
      payoutAddressOffset_eq h, adviceOffset_eq h, depositTransaction_eq h, payoutAddress_eq h,
      advice_eq h, hinputLength, deposit.payoutAddress.property, deposit.advice.property, hsize,
      hsizeof, List.not_mem_nil, false_imp_iff, implies_true, and_true]
    omega
  constructor
  · intro hdecodes
    rw [← hdecodes.input, input_eq h (hinside.mp hdecodes.inside)]
    exact List.take_prefix _ _
  · intro hprefix
    have hlength := hprefix.length_le
    rw [List.length_append, deposit.payoutAddress.property, deposit.advice.property] at hlength
    exact {
      depositAmount := depositAmount_eq h
      depositTransaction := depositTransaction_eq h
      input := (input_eq h hlength).trans (List.prefix_iff_eq_take.mp hprefix).symm
      payoutAddress := payoutAddress_eq h
      advice := advice_eq h
      inside := hinside.mpr hlength }

end Message

section Sending
open Player

/-- What the Rust library has told a run of the player's enclave. -/
structure Told where
  depositAmount : Option Nat := none
  payoutAddress : Option (FixedBytes 43) := none
  advice : Option (FixedBytes 128) := none

def Deposit.told (deposit : Deposit) : Told :=
  ⟨some deposit.depositAmount, some deposit.payoutAddress, some deposit.advice⟩

def tell {β : Type} (told : Told) (c : Call Callback β) (answer : β) : Told :=
  match c with
  | .zcashDepositedAmount _ _ => { told with depositAmount := some answer }
  | .zcashExportAddressImpl _ => { told with payoutAddress := some answer }
  | .zcashExportAdviceImpl _ => { told with advice := some answer }
  | _ => told

/-- A message is sent for the deposit that the run was told of. -/
def listen (depositTransaction input : Bytes) : Monitor (Call Callback) Globals Told where
  answered := tell
  safe _ told c :=
    match c with
    | .auntieMsgSend msg _ => ∀ deposit : Deposit, told = deposit.told →
      deposit.depositTransaction = depositTransaction → deposit.input = input →
      msg = deposit.message
    | _ => True

/-- A run of the player's enclave sends this message for the deposit. -/
def Sends (build : Build) (deposit : Deposit) (msg : Message) : Prop :=
  ∃ (globals last : Globals) (before after : List (Event (Call Callback)))
    (channel : ChannelRef) (result : Option Int32),
    Exec (ecallDepositAndInputImpl build deposit.depositTransaction deposit.input) globals
      (before ++ .issued (.auntieMsgSend msg channel) :: after) last result ∧
    before.foldl (listen deposit.depositTransaction deposit.input).observe {} = deposit.told

theorem sendDeposit_spec {globals : Globals} {told : Told} {depositAmount : Nat}
    {depositTransaction input : Bytes} {payoutAddress rawAdvice : Buffer} {advice : Pointer}
    (h : ∀ deposit : Deposit, told = deposit.told →
      deposit.depositTransaction = depositTransaction → deposit.input = input →
      DepositAndInput.encode depositAmount depositTransaction input payoutAddress.contents
        rawAdvice.contents = deposit.payload) :
    wp (listen depositTransaction input) (fun _ _ _ => True)
      (sendDeposit depositAmount depositTransaction input payoutAddress rawAdvice advice)
      globals told := by
  simp only [sendDeposit, releaseAdvice, wp_bind, wp_issue]
  refine ⟨trivial, fun msg => ?_⟩
  cases msg with
  | none => exact ⟨trivial, fun _ => ⟨trivial, fun _ => ⟨trivial, fun _ => trivial⟩⟩⟩
  | some msg =>
    simp only [wp_bind, wp_get]
    cases globals.operator with
    | none => exact wp_deref_none.mpr trivial
    | some operator =>
      simp only [wp_deref_some, wp_issue, wp_ite, wp_bind, wp_pure, wp_modify]
      refine ⟨?_, fun ret => ⟨trivial, fun _ => ⟨trivial, fun _ => ⟨trivial, fun _ => ?_⟩⟩⟩⟩
      · intro deposit htold htransaction hinput
        rw [h deposit htold htransaction hinput, Deposit.message]
      · exact ⟨fun _ => ⟨trivial, fun _ => trivial⟩, fun _ => trivial⟩

theorem ecallDepositAndInputImpl_spec {build : Build} {globals : Globals} {told : Told}
    (depositTransaction input : Bytes) :
    wp (listen depositTransaction input) (fun _ _ _ => True)
      (ecallDepositAndInputImpl build depositTransaction input) globals told := by
  simp only [ecallDepositAndInputImpl, wp_bind, wp_issue]
  refine ⟨trivial, fun tx => ?_⟩
  cases tx with
  | none => trivial
  | some tx =>
    simp only [wp_bind, wp_get]
    cases globals.depositWallet with
    | none => exact wp_deref_none.mpr trivial
    | some depositWallet =>
      simp only [wp_deref_some, wp_issue, wp_ite, wp_pure, wp_bind, wp_get]
      refine ⟨trivial, fun depositAmount => ⟨trivial, fun _ => ⟨fun _ => trivial, fun _ => ?_⟩⟩⟩
      cases globals.payoutWallet with
      | none => exact wp_deref_none.mpr trivial
      | some payoutWallet =>
        simp only [wp_deref_some, zcashExportAddress, zcashExport, wp_bind, wp_issue]
        refine ⟨trivial, fun address => ?_⟩
        cases address with
        | none => trivial
        | some address =>
          simp only [wp_bind, wp_issue, wp_pure, wp_modify]
          refine ⟨trivial, fun payoutAddress => ⟨trivial, fun depositAdvice => ?_⟩⟩
          cases depositAdvice with
          | none => exact ⟨trivial, fun _ => trivial⟩
          | some advice =>
            simp only [zcashExportAdvice, zcashExport, wp_bind, wp_issue]
            refine ⟨trivial, fun address => ?_⟩
            cases address with
            | none => exact ⟨trivial, fun _ => ⟨trivial, fun _ => trivial⟩⟩
            | some address =>
              simp only [wp_bind, wp_issue, wp_pure]
              refine ⟨trivial, fun rawAdvice => sendDeposit_spec ?_⟩
              intro deposit htold htransaction hinput
              simp only [Deposit.told, listen, tell, Told.mk.injEq, Option.some.injEq] at htold
              obtain ⟨hamount, haddress, hadvice⟩ := htold
              rw [Deposit.payload, hamount, htransaction, hinput, haddress, hadvice]

/-- What is sent is the encoding of the deposit. -/
theorem Sends.message {build : Build} {deposit : Deposit} {msg : Message}
    (h : Sends build deposit msg) : msg = deposit.message := by
  obtain ⟨globals, last, before, after, channel, result, hexec, htold⟩ := h
  obtain ⟨_, hsafe⟩ := (hexec.accepts (ecallDepositAndInputImpl_spec _ _)).issued
  exact hsafe deposit htold rfl rfl

/-- Every deposit that covers the fees can be sent. -/
theorem sends_message {build : Build} {deposit : Deposit}
    (hfees : build.minerFeePerParty + build.operatorFeePerPlayer ≤ deposit.depositAmount) :
    Sends build deposit deposit.message := by
  let globals : Globals :=
    { depositWallet := some ⟨1, 1, 1⟩, payoutWallet := some ⟨1, 1, 1⟩
      operator := some ⟨1, .create 1, ⟨1, []⟩, FixedBytes.zero 64⟩ }
  let size := sizeofMessageHeader + deposit.payload.length % 2 ^ 32
  refine ⟨globals, { globals with depositAdvice := some 1 },
    [.issued (.zcashImportTransaction deposit.depositTransaction),
      .answered (.zcashImportTransaction deposit.depositTransaction) (some 1),
      .issued (.zcashDepositedAmount 1 1),
      .answered (.zcashDepositedAmount 1 1) deposit.depositAmount,
      .issued (.zcashReleaseTransaction 1), .answered (.zcashReleaseTransaction 1) (),
      .issued (.malloc 43), .answered (.malloc 43) (some 1),
      .issued (.zcashExportAddressImpl 1),
      .answered (.zcashExportAddressImpl 1) deposit.payoutAddress,
      .issued (.zcashCreateAdvice 1), .answered (.zcashCreateAdvice 1) (some 1),
      .issued (.malloc 128), .answered (.malloc 128) (some 1),
      .issued (.zcashExportAdviceImpl 1), .answered (.zcashExportAdviceImpl 1) deposit.advice,
      .issued (.malloc size), .answered (.malloc size) (some 1)],
    [.answered (.auntieMsgSend deposit.message (.create 1)) 0, .issued (.free 1),
      .answered (.free 1) (), .issued (.free 1), .answered (.free 1) (), .issued (.free 1),
      .answered (.free 1) ()],
    .create 1, some 0, ?_, rfl⟩
  simp [ecallDepositAndInputImpl, sendDeposit, zcashExportAddress, zcashExportAdvice, zcashExport,
    deref, not_lt.mpr hfees, globals, size, Deposit.message, Deposit.payload, -bind_pure_comp]

end Sending

section Loop
open Operator

/-- What a run has received and handed to the import functions. -/
structure Seen where
  received : List ReceivedMessage := []
  transactions : List Bytes := []
  addresses : List Bytes := []
  advices : List Bytes := []

namespace Seen

def handIn {β : Type} (seen : Seen) : Call Callback β → Seen
  | .zcashImportTransaction raw => { seen with transactions := seen.transactions ++ [raw] }
  | .zcashImportAddress raw => { seen with addresses := seen.addresses ++ [raw] }
  | .zcashImportAdvice raw => { seen with advices := seen.advices ++ [raw] }
  | _ => seen

def receive (seen : Seen) (msg : Option ReceivedMessage) : Seen :=
  { seen with received := seen.received ++ msg.toList }

end Seen

def watch : Monitor (Call Callback) Globals Seen where
  issued := Seen.handIn
  answered seen c answer :=
    match c with
    | .auntieMsgReceive _ => seen.receive answer
    | _ => seen

/-- The arrays after the messages have been decoded. -/
structure Holds (build : Build) (collateral : Nat) (msgs : List ReceivedMessage)
    (collected : Collected) (seen : Seen) : Prop where
  depositAmounts : collected.depositAmounts = collateral :: msgs.map fun msg =>
    DepositAndInput.depositAmount msg - (build.minerFeePerParty + build.operatorFeePerPlayer)
  rawDepositTransactions : collected.rawDepositTransactions.map Buffer.contents =
    msgs.map DepositAndInput.depositTransaction
  inputs : collected.inputs.map Buffer.contents = msgs.map DepositAndInput.input
  transactions : seen.transactions = msgs.map DepositAndInput.depositTransaction
  addresses : seen.addresses = msgs.map DepositAndInput.payoutAddress
  advices : seen.advices = msgs.map DepositAndInput.advice

variable {build : Build} {collateral : Nat} {globals : Globals} {collected : Collected}

theorem decodeParty_spec {seen : Seen} (msg : ReceivedMessage) :
    wp watch (fun result _ seen' => result.1 = 0 → ∃ payoutAddress advice,
        result.2 = (collected.addPayoutAddress payoutAddress).addAdvice advice ∧
        seen' = { seen with
          addresses := seen.addresses ++ [DepositAndInput.payoutAddress msg]
          advices := seen.advices ++ [DepositAndInput.advice msg] })
      (decodeParty msg collected) globals seen := by
  simp only [decodeParty, wp_bind, wp_issue]
  refine ⟨trivial, fun payoutAddress => ?_⟩
  cases payoutAddress with
  | none => exact ⟨trivial, fun _ h => absurd h einval_error⟩
  | some payoutAddress =>
    simp only [wp_bind, wp_issue]
    refine ⟨trivial, fun advice => ?_⟩
    cases advice with
    | none => exact ⟨trivial, fun _ h => absurd h einval_error⟩
    | some advice => exact ⟨trivial, fun _ _ => ⟨payoutAddress, advice, rfl, rfl⟩⟩

theorem decodeInput_spec {seen : Seen} (msg : ReceivedMessage) :
    wp watch (fun result _ seen' => result.1 = 0 →
        build.minerFeePerParty + build.operatorFeePerPlayer ≤ DepositAndInput.depositAmount msg ∧
        ∃ input payoutAddress advice,
          result.2 = (((collected.addAmount (sub64 (sub64 (DepositAndInput.depositAmount msg)
            build.minerFeePerParty) build.operatorFeePerPlayer)).addInput
            ⟨input, DepositAndInput.input msg⟩).addPayoutAddress payoutAddress).addAdvice advice ∧
          seen' = { seen with
            addresses := seen.addresses ++ [DepositAndInput.payoutAddress msg]
            advices := seen.advices ++ [DepositAndInput.advice msg] })
      (decodeInput build msg collected) globals seen := by
  simp only [decodeInput, wp_ite, wp_pure, wp_bind, wp_issue]
  refine ⟨fun _ h => absurd h einval_error, fun hfees => ⟨trivial, fun input => ?_⟩⟩
  cases input with
  | none => exact ⟨trivial, fun _ h => absurd h enomem_error⟩
  | some input =>
    refine wp_mono ?_ (decodeParty_spec msg)
    intro result _ seen' hparty hret
    obtain ⟨payoutAddress, advice, hresult, hseen⟩ := hparty hret
    exact ⟨not_lt.mp hfees, input, payoutAddress, advice, hresult, hseen⟩

theorem sub64_fees {msg : ReceivedMessage}
    (h : build.minerFeePerParty + build.operatorFeePerPlayer ≤ DepositAndInput.depositAmount msg) :
    sub64 (sub64 (DepositAndInput.depositAmount msg) build.minerFeePerParty)
      build.operatorFeePerPlayer = DepositAndInput.depositAmount msg -
        (build.minerFeePerParty + build.operatorFeePerPlayer) := by
  have hlt := leValue_lt (msg.read 0 8)
  rw [msg.read_length] at hlt
  change DepositAndInput.depositAmount msg < 2 ^ 64 at hlt
  rw [sub64_of_le (by omega) hlt, sub64_of_le (by omega) (by omega)]
  omega

theorem decodeDeposit_spec {msgs : List ReceivedMessage} {seen : Seen} (msg : ReceivedMessage)
    (h : Holds build collateral msgs collected seen) :
    wp watch (fun result _ seen' => result.1 = 0 →
        Holds build collateral (msgs ++ [msg]) result.2 seen' ∧ seen'.received = seen.received)
      (decodeDeposit build msg collected) globals seen := by
  simp only [decodeDeposit, wp_bind, wp_issue]
  refine ⟨trivial, fun transaction => ?_⟩
  cases transaction with
  | none => exact ⟨trivial, fun _ h => absurd h einval_error⟩
  | some transaction =>
    simp only [wp_bind, wp_issue]
    refine ⟨trivial, fun raw => ?_⟩
    cases raw with
    | none => exact ⟨trivial, fun _ h => absurd h enomem_error⟩
    | some raw =>
      refine wp_mono ?_ (decodeInput_spec msg)
      rintro ⟨ret, collected'⟩ _ seen' hinput hret
      obtain ⟨hfees, input, payoutAddress, advice, rfl, rfl⟩ := hinput hret
      refine ⟨?_, rfl⟩
      exact {
        depositAmounts := by
          rw [List.map_append, ← List.cons_append, ← h.depositAmounts, List.map_singleton,
            ← sub64_fees hfees]
          rfl
        rawDepositTransactions := by
          rw [List.map_append, ← h.rawDepositTransactions]
          exact List.map_append
        inputs := by
          rw [List.map_append, ← h.inputs]
          exact List.map_append
        transactions := by
          rw [List.map_append, ← h.transactions]
          rfl
        addresses := by
          rw [List.map_append, ← h.addresses]
          rfl
        advices := by
          rw [List.map_append, ← h.advices]
          rfl }

/-- When the loop ends with zero, the arrays hold what the messages received say. -/
theorem collectDeposits_spec {seen : Seen} (indices : List Nat)
    (h : Holds build collateral seen.received collected seen) :
    wp watch (fun result _ seen' => result.1 = 0 →
        Holds build collateral seen'.received result.2 seen')
      (collectDeposits build indices collected) globals seen := by
  induction indices generalizing collected globals seen with
  | nil => exact fun _ => h
  | cons i rest ih =>
    simp only [collectDeposits, playerAt, wp_bind, wp_get]
    cases globals.players[i]?.join with
    | none => exact wp_deref_none.mpr trivial
    | some player =>
      simp only [wp_deref_some, wp_issue]
      refine ⟨trivial, fun msg => ?_⟩
      cases msg with
      | none => exact fun h => absurd h eio_error
      | some msg =>
        simp only [wp_ite, wp_bind, wp_issue, wp_pure]
        refine ⟨fun _ => ⟨trivial, fun _ h => absurd h eio_error⟩, fun _ => ?_⟩
        have hreceived : Holds build collateral seen.received collected (seen.receive msg) :=
          ⟨h.depositAmounts, h.rawDepositTransactions, h.inputs, h.transactions, h.addresses,
            h.advices⟩
        refine wp_mono ?_ (decodeDeposit_spec msg hreceived)
        rintro ⟨ret, collected'⟩ last seen' hdecoded
        refine ⟨fun hret h => absurd h hret, fun hret => ih ?_⟩
        obtain ⟨hholds, hseen⟩ := hdecoded (not_not.mp hret)
        rw [hseen]
        exact hholds

/-- The operator's entries of the arrays, before the loop. -/
def operatorEntries (payoutAddress advice transaction : Pointer) (collateral : Nat) : Collected :=
  { payoutAddresses := [payoutAddress], advices := [advice], depositTransactions := [transaction],
    depositAmounts := [collateral] }

/-- The loop has decoded the message at this index into what the player put into it. -/
structure Decoded (build : Build) (collected : Collected) (seen : Seen) (i : Nat)
    (deposit : Deposit) : Prop where
  depositAmount : collected.depositAmounts[i + 1]? =
    some (deposit.depositAmount - (build.minerFeePerParty + build.operatorFeePerPlayer))
  depositTransaction : (collected.rawDepositTransactions.map Buffer.contents)[i]? =
    some deposit.depositTransaction
  importedTransaction : seen.transactions[i]? = some deposit.depositTransaction
  input : (collected.inputs.map Buffer.contents)[i]? = some deposit.input
  payoutAddress : seen.addresses[i]? = some deposit.payoutAddress.val
  advice : seen.advices[i]? = some deposit.advice.val
  inside : ∀ msg, seen.received[i]? = some msg → ReadsInside msg

theorem Holds.decoded_iff {seen : Seen} {i : Nat} {msg : ReceivedMessage} {deposit : Deposit}
    (h : Holds build collateral seen.received collected seen)
    (hmsg : seen.received[i]? = some msg) (hpayload : msg.payload = deposit.payload) :
    Decoded build collected seen i deposit ↔ Decodes msg deposit := by
  have hread {α : Type} {values : List α} {read : ReceivedMessage → α}
      (hvalues : values = seen.received.map read) : values[i]? = some (read msg) := by
    rw [hvalues, List.getElem?_map, hmsg, Option.map_some]
  constructor
  · intro hdecoded
    exact {
      depositAmount := depositAmount_eq hpayload
      depositTransaction := depositTransaction_eq hpayload
      input := Option.some.inj ((hread h.inputs).symm.trans hdecoded.input)
      payoutAddress := payoutAddress_eq hpayload
      advice := advice_eq hpayload
      inside := hdecoded.inside msg hmsg }
  · intro hdecodes
    have hamounts := hread (congrArg List.tail h.depositAmounts)
    rw [List.getElem?_tail, hdecodes.depositAmount] at hamounts
    exact {
      depositAmount := hamounts
      depositTransaction := hdecodes.depositTransaction ▸ hread h.rawDepositTransactions
      importedTransaction := hdecodes.depositTransaction ▸ hread h.transactions
      input := hdecodes.input ▸ hread h.inputs
      payoutAddress := hdecodes.payoutAddress ▸ hread h.addresses
      advice := hdecodes.advice ▸ hread h.advices
      inside := fun other hother => by
        rw [Option.some.inj (hother.symm.trans hmsg)]
        exact hdecodes.inside }

/-- A player's deposit, whatever the others send, is decoded right exactly when its input is
how its payout address and its advice begin. -/
theorem deposit_decoded_iff (build : Build)
    {payoutAddress advice transaction : Pointer} {globals last : Globals}
    {events : List (Event (Call Callback))}
    (hrun : Exec (collectDeposits build (List.range build.numPlayers)
      (operatorEntries payoutAddress advice transaction collateral)) globals events last
      (some (0, collected)))
    (i : Nat) (deposit : Deposit) (hsize : deposit.payload.length < 2 ^ 32)
    {msg : ReceivedMessage} (hmsg : (events.foldl watch.observe {}).received[i]? = some msg)
    (hsends : Sends build deposit msg.toMessage) :
    Decoded build collected (events.foldl watch.observe {}) i deposit ↔
      deposit.input <+: deposit.payoutAddress.val ++ deposit.advice.val := by
  have hpayload : msg.payload = deposit.payload := by
    rw [hsends.message, Deposit.message, Message.ofPayload_payload hsize]
  have hentries : Holds build collateral ({} : Seen).received
      (operatorEntries payoutAddress advice transaction collateral) {} :=
    ⟨rfl, rfl, rfl, rfl, rfl, rfl⟩
  have hholds := hrun.returned (collectDeposits_spec _ hentries) rfl
  rw [hholds.decoded_iff hmsg hpayload, decodes_iff hpayload]

end Loop

section Examples
open Operator
open Blocks (zeroBuild)

/-- A deposit with an input of one byte. -/
def smallDeposit (input : UInt8) : Deposit where
  depositAmount := 1000000
  depositTransaction := [1]
  input := [input]
  payoutAddress := FixedBytes.zero 43
  advice := FixedBytes.zero 128
  depositAmount_lt := by decide

theorem smallDeposit_length (input : UInt8) : (smallDeposit input).payload.length = 197 :=
  (smallDeposit input).payload_length

theorem smallDeposit_sends (input : UInt8) :
    Sends zeroBuild (smallDeposit input) (smallDeposit input).message :=
  sends_message (show 10000 ≤ 1000000 by decide)

def smallMessage (input : UInt8) : ReceivedMessage :=
  (smallDeposit input).message.received (show 6 < 9 by decide) (by
    have hlength := smallDeposit_length input
    rw [Deposit.message, Message.ofPayload_payload (by omega)]
    omega)

def connected : Globals where
  players := List.replicate 3
    (some ⟨1, ⟨1, 1, some (FixedBytes.zero 16)⟩, 1, FixedBytes.zero 64, ⟨1, []⟩⟩)

/-- All players send this deposit. -/
def smallHost (input : UInt8) {β : Type} : Nat → Call Callback β → Option β :=
  obligingHost (fun _ _ => some (smallMessage input)) fun _ => 0

def smallPlay {α : Type} (input : UInt8) (p : Code α) :
    List (Event (Call Callback)) × Globals × Option α :=
  play (smallHost input) 0 p connected

theorem smallPlay_run {α : Type} (input : UInt8) (p : Code α) :
    Exec p connected (smallPlay input p).1 (smallPlay input p).2.1 (smallPlay input p).2.2 :=
  exec_play (smallHost input) 0 p connected

/-- The loop over all players. -/
def loop : Code (Int32 × Collected) :=
  collectDeposits zeroBuild (List.range zeroBuild.numPlayers) (operatorEntries 1 1 1 1000000)

/-- An input that begins like the payout address is decoded. -/
theorem deposit_decoded_zero :
    ∃ collected, Decoded zeroBuild collected ((smallPlay 0 loop).1.foldl watch.observe {}) 1
      (smallDeposit 0) := by
  have hrun := smallPlay_run 0 loop
  have hret : (smallPlay 0 loop).2.2.map Prod.fst = some 0 := by decide +kernel
  obtain ⟨⟨ret, collected⟩, hresult, rfl⟩ := Option.map_eq_some_iff.mp hret
  have hmessage : (((smallPlay 0 loop).1.foldl watch.observe {}).received.map
      ReceivedMessage.toMessage)[1]? = some (smallDeposit 0).message := by decide +kernel
  rw [hresult] at hrun
  rw [List.getElem?_map] at hmessage
  obtain ⟨msg, hmsg, hsame⟩ := Option.map_eq_some_iff.mp hmessage
  have hsize : (smallDeposit 0).payload.length < 2 ^ 32 := by
    rw [smallDeposit_length]
    decide
  refine ⟨collected, (deposit_decoded_iff zeroBuild hrun 1 (smallDeposit 0) hsize
    hmsg (hsame ▸ smallDeposit_sends 0)).mpr ?_⟩
  exact ⟨List.replicate 170 0, by decide +kernel⟩

/-- The input of another player is not decoded: its place holds the payout address. -/
theorem input_decoded_from_payout_address :
    ∃ (events : List (Event (Call Callback))) (last : Globals) (collected : Collected)
      (msg : ReceivedMessage),
      Exec (collectDeposits zeroBuild (List.range zeroBuild.numPlayers)
        (operatorEntries 1 1 1 1000000)) connected events last (some (0, collected)) ∧
      (events.foldl watch.observe {}).received[1]? = some msg ∧
      Sends zeroBuild (smallDeposit 2) msg.toMessage ∧
      (smallDeposit 2).payload.length < 2 ^ 32 ∧
      ¬ Decoded zeroBuild collected (events.foldl watch.observe {}) 1 (smallDeposit 2) := by
  have hrun := smallPlay_run 2 loop
  have hret : (smallPlay 2 loop).2.2.map (fun result => (result.1,
      (result.2.inputs.map Buffer.contents)[1]?)) = some (0, some [0]) := by decide +kernel
  obtain ⟨⟨ret, collected⟩, hresult, hinput⟩ := Option.map_eq_some_iff.mp hret
  obtain ⟨rfl, hinput⟩ := Prod.mk.inj hinput
  have hmessage : (((smallPlay 2 loop).1.foldl watch.observe {}).received.map
      ReceivedMessage.toMessage)[1]? = some (smallDeposit 2).message := by decide +kernel
  rw [hresult] at hrun
  rw [List.getElem?_map] at hmessage
  obtain ⟨msg, hmsg, hsame⟩ := Option.map_eq_some_iff.mp hmessage
  refine ⟨_, _, collected, msg, hrun, hmsg, hsame ▸ smallDeposit_sends 2, ?_, ?_⟩
  · rw [smallDeposit_length]
    decide
  · intro hdecoded
    have hsame := hinput.symm.trans hdecoded.input
    exact absurd hsame (by decide)

end Examples

end Auntie.Guarantees.DepositDecoding

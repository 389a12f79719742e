import Auntie.Ledger
import Auntie.Guarantees.DepositDecoding
import Mathlib.Tactic.Abel

/-!
# Objects of a call that clears the contract

`ecall_clear_contract_impl` keeps what it imports and allocates in local arrays and releases
them on one path. Two exits are out of step with it: a deposit that does not cover the fees
leaves its message allocated, and `evaluate_functionality` frees the outputs it has allocated
when another one cannot be, which the caller then frees again.
-/

namespace Auntie.Guarantees.LocalObjects
open Auntie.Source Auntie.Source.Operator Auntie.Interaction

section Statement

/-- Who an object is released to. -/
inductive Owner where
  | transaction
  | address
  | advice
  | heap
  deriving DecidableEq

abbrev Object := Owner × Pointer

@[simp] def released {β : Type} : Call Callback β → List Object
  | .zcashReleaseTransaction transaction => [(.transaction, transaction)]
  | .zcashReleaseAddress address => [(.address, address)]
  | .zcashReleaseAdvice advice => [(.advice, advice)]
  | .free address => [(.heap, address)]
  | _ => []

@[simp] def acquired {β : Type} : Call Callback β → β → List Object
  | .zcashImportTransaction _, transaction => transaction.toList.map fun object => (.transaction, object)
  | .zcashImportAddress _, address => address.toList.map fun object => (.address, object)
  | .zcashImportAdvice _, advice => advice.toList.map fun object => (.advice, object)
  | .zcashCreateAdvice _, advice => advice.toList.map fun object => (.advice, object)
  | .malloc _, address => address.toList.map fun object => (.heap, object)
  | .auntieMsgReceive _, msg => msg.toList.map fun msg => (.heap, msg.address)
  | _, _ => []

/-- How far the message at hand has been read, and the outputs allocated. -/
inductive Stage where
  | other
  | arrived (msg : ReceivedMessage)
  | imported (msg : ReceivedMessage)
  /-- The deposit has been imported and copied, no buffer asked for since. -/
  | copied (msg : ReceivedMessage)
  /-- A random number has been drawn, and this many buffers allocated since. -/
  | drawn (outputs : Nat)
  /-- The allocation after this many has failed. -/
  | short (outputs : Nat)

namespace Stage

/-- A transaction has been imported. -/
@[simp] def afterImport : Stage → Stage
  | .arrived msg => .imported msg
  | stage => stage

/-- A buffer has been asked for. -/
@[simp] def afterMalloc : Stage → Bool → Stage
  | .imported msg, true => .copied msg
  | .copied _, _ => .other
  | .drawn outputs, true => .drawn (outputs + 1)
  | .drawn outputs, false => .short outputs
  | stage, _ => stage

@[simp] def next {β : Type} (stage : Stage) : Call Callback β → β → Stage
  | .auntieMsgReceive _, msg => msg.elim stage .arrived
  | .zcashImportTransaction _, transaction => if transaction.isSome then stage.afterImport else stage
  | .malloc _, address => stage.afterMalloc address.isSome
  | .sgxReadRand _, random => if random.isSome then .drawn 0 else stage
  | .zcashCreateTransaction _ _ _ _ _ _, _ => .other
  | _, _ => stage

/-- The deposit at hand, imported and copied, does not cover the fees. -/
@[simp] def Uncovered (build : Build) : Stage → Prop
  | .copied msg =>
    DepositAndInput.depositAmount msg < build.minerFeePerParty + build.operatorFeePerPlayer
  | _ => False

/-- An output cannot be allocated, and one before it could. -/
@[simp] def OutputsShort : Stage → Prop
  | .short outputs => 0 < outputs
  | _ => False

instance (build : Build) : (stage : Stage) → Decidable (stage.Uncovered build)
  | .copied _ => inferInstanceAs (Decidable (_ < _))
  | .other | .arrived _ | .imported _ | .drawn _ | .short _ => .isFalse id

instance : (stage : Stage) → Decidable stage.OutputsShort
  | .short _ => inferInstanceAs (Decidable (_ < _))
  | .other | .arrived _ | .imported _ | .copied _ | .drawn _ => .isFalse id

end Stage

structure Account where
  ledger : Ledger Object := {}
  stage : Stage := .other

def accounts : Monitor (Call Callback) Globals Account where
  issued account c := { account with ledger := account.ledger.release (released c) }
  answered account c answer := ⟨account.ledger.acquire (acquired c answer), account.stage.next c answer⟩

def accountOf (events : List (Event (Call Callback))) : Account :=
  events.foldl accounts.observe {}

/-- Everything acquired has been released, and exactly once. -/
def Balanced (events : List (Event (Call Callback))) : Prop :=
  (accountOf events).ledger = ⟨0, 0⟩

end Statement

section Held

def objects (owner : Owner) (pointers : List Pointer) : List Object :=
  pointers.map fun pointer => (owner, pointer)

def blocks (buffers : List Buffer) : List Object := objects .heap (buffers.map Buffer.address)

theorem coe_objects_append (owner : Owner) (pointers : List Pointer) (pointer : Pointer) :
    (objects owner (pointers ++ [pointer]) : Multiset Object) =
      {(owner, pointer)} + (objects owner pointers : Multiset Object) := by
  rw [objects, List.map_append, ← Multiset.coe_add, add_comm]
  rfl

theorem coe_blocks_append (buffers : List Buffer) (buffer : Buffer) :
    (blocks (buffers ++ [buffer]) : Multiset Object) =
      {(.heap, buffer.address)} + (blocks buffers : Multiset Object) := by
  rw [blocks, List.map_append]
  exact coe_objects_append _ _ _

/-- The objects in the arrays that have an entry for each party. -/
def partyObjects (collected : Collected) : Multiset Object :=
  objects .transaction collected.depositTransactions +
    objects .address collected.payoutAddresses + objects .advice collected.advices

/-- What the arrays hold before the functionality is evaluated. -/
def held (collected : Collected) : Multiset Object :=
  partyObjects collected + blocks collected.rawDepositTransactions + blocks collected.inputs

section Add
variable (collected : Collected)

@[simp] theorem held_addTransaction (transaction : Pointer) :
    held (collected.addTransaction transaction) = (.transaction, transaction) ::ₘ held collected := by
  simp only [held, partyObjects, Collected.addTransaction, coe_objects_append,
    ← Multiset.singleton_add]
  abel

@[simp] theorem held_addRawTransaction (raw : Buffer) :
    held (collected.addRawTransaction raw) = (.heap, raw.address) ::ₘ held collected := by
  simp only [held, partyObjects, Collected.addRawTransaction, coe_blocks_append,
    ← Multiset.singleton_add]
  abel

@[simp] theorem held_addAmount (depositAmount : Nat) :
    held (collected.addAmount depositAmount) = held collected := rfl

@[simp] theorem held_addInput (input : Buffer) :
    held (collected.addInput input) = (.heap, input.address) ::ₘ held collected := by
  simp only [held, partyObjects, Collected.addInput, coe_blocks_append, ← Multiset.singleton_add]
  abel

@[simp] theorem held_addPayoutAddress (payoutAddress : Pointer) :
    held (collected.addPayoutAddress payoutAddress) =
      (.address, payoutAddress) ::ₘ held collected := by
  simp only [held, partyObjects, Collected.addPayoutAddress, coe_objects_append,
    ← Multiset.singleton_add]
  abel

@[simp] theorem held_addAdvice (advice : Pointer) :
    held (collected.addAdvice advice) = (.advice, advice) ::ₘ held collected := by
  simp only [held, partyObjects, Collected.addAdvice, coe_objects_append, ← Multiset.singleton_add]
  abel

end Add

/-- The arrays hold at most the operator's entries and those of this many players. -/
structure Bounded (players : Nat) (collected : Collected) : Prop where
  depositTransactions : collected.depositTransactions.length ≤ players + 1
  payoutAddresses : collected.payoutAddresses.length ≤ players + 1
  advices : collected.advices.length ≤ players + 1
  rawDepositTransactions : collected.rawDepositTransactions.length ≤ players
  inputs : collected.inputs.length ≤ players
  outputs : collected.outputs = []

theorem Bounded.mono {players more : Nat} {collected : Collected} (h : Bounded players collected)
    (hle : players ≤ more) : Bounded more collected where
  depositTransactions := by have := h.depositTransactions; omega
  payoutAddresses := by have := h.payoutAddresses; omega
  advices := by have := h.advices; omega
  rawDepositTransactions := by have := h.rawDepositTransactions; omega
  inputs := by have := h.inputs; omega
  outputs := h.outputs

end Held

section Collecting
variable {build : Build} {globals : Globals} {collected : Collected} {players : Nat}

theorem wp_accounts_issue {β : Type} {c : Call Callback β}
    {post : β → Globals → Account → Prop} {account : Account} :
    wp accounts post (issue c : Code β) globals account ↔ ∀ answer, post answer globals
      ⟨(account.ledger.release (released c)).acquire (acquired c answer),
        account.stage.next c answer⟩ := by
  simp [accounts]

/-- Besides what the arrays hold a message is live, whose deposit does not cover the fees. -/
def Leaks (build : Build) (objects : Multiset Object) (account : Account) : Prop :=
  ∃ address, account.ledger = ⟨(.heap, address) ::ₘ objects, 0⟩ ∧ account.stage.Uncovered build

theorem release_second (first second : Object) (rest : Multiset Object) :
    (⟨first ::ₘ second ::ₘ rest, 0⟩ : Ledger Object).release [second] = ⟨first ::ₘ rest, 0⟩ := by
  rw [Multiset.cons_swap, Ledger.release_cons_self]

theorem release_third (first second third : Object) (rest : Multiset Object) :
    (⟨first ::ₘ second ::ₘ third ::ₘ rest, 0⟩ : Ledger Object).release [third] =
      ⟨first ::ₘ second ::ₘ rest, 0⟩ := by
  rw [Multiset.cons_swap second, Multiset.cons_swap first, Ledger.release_cons_self]

/-- At most one more entry in each array. -/
def Extends (before after : Collected) : Prop :=
  after.depositTransactions.length ≤ before.depositTransactions.length + 1 ∧
    after.payoutAddresses.length ≤ before.payoutAddresses.length + 1 ∧
    after.advices.length ≤ before.advices.length + 1 ∧
    after.rawDepositTransactions.length ≤ before.rawDepositTransactions.length + 1 ∧
    after.inputs.length ≤ before.inputs.length + 1 ∧ after.outputs = before.outputs

/-- Of the message at hand the arrays hold what has been decoded, and it is gone, or it is left
for want of the fees. -/
def Decoded (build : Build) (ret : Int32) (collected : Collected) (account : Account) : Prop :=
  account.ledger = ⟨held collected, 0⟩ ∧ ¬ account.stage.Uncovered build ∧
      ¬ account.stage.OutputsShort ∨
    ret ≠ 0 ∧ Leaks build (held collected) account

/-- From an unread message on, with the deposit and the input already in the arrays. -/
theorem decodeParty_spec {before : Collected} (msg : ReceivedMessage)
    (hextends : Extends before collected)
    (hpayoutAddresses : collected.payoutAddresses.length ≤ before.payoutAddresses.length)
    (hadvices : collected.advices.length ≤ before.advices.length) :
    wp accounts (fun result _ m => Decoded build result.1 result.2 m ∧ Extends before result.2)
      (decodeParty msg collected) globals ⟨⟨(.heap, msg.address) ::ₘ held collected, 0⟩, .other⟩ := by
  simp only [Extends] at hextends
  simp only [decodeParty, wp_bind, wp_accounts_issue]
  intro address
  cases address with
  | none =>
    simp only [wp_bind, wp_accounts_issue, wp_pure]
    intro _
    constructor
    · simp [Decoded]
    · exact hextends
  | some address =>
    simp only [wp_bind, wp_accounts_issue]
    intro advice
    cases advice with
    | none =>
      simp only [wp_bind, wp_accounts_issue, wp_pure]
      intro _
      constructor
      · simp [Decoded, release_second]
      · simp only [Extends, Collected.addPayoutAddress, List.length_append, List.length_singleton]
        grind
    | some advice =>
      simp only [wp_bind, wp_accounts_issue, wp_pure]
      intro _
      constructor
      · simp [Decoded, release_third]
      · simp only [Extends, Collected.addPayoutAddress, Collected.addAdvice, List.length_append,
          List.length_singleton]
        grind

/-- From an imported and copied deposit on. -/
theorem decodeInput_spec {before : Collected} (msg : ReceivedMessage)
    (hextends : Extends before collected)
    (hpayoutAddresses : collected.payoutAddresses.length ≤ before.payoutAddresses.length)
    (hadvices : collected.advices.length ≤ before.advices.length)
    (hinputs : collected.inputs.length ≤ before.inputs.length) :
    wp accounts (fun result _ m => Decoded build result.1 result.2 m ∧ Extends before result.2)
      (decodeInput build msg collected) globals
      ⟨⟨(.heap, msg.address) ::ₘ held collected, 0⟩, .copied msg⟩ := by
  simp only [decodeInput, wp_ite, wp_pure]
  constructor
  · intro hfees
    exact ⟨.inr ⟨einval_error, msg.address, rfl, hfees⟩, hextends⟩
  · intro _
    simp only [wp_bind, wp_accounts_issue]
    intro input
    cases input with
    | none =>
      simp only [wp_bind, wp_accounts_issue, wp_pure]
      intro _
      exact ⟨.inl (by simp), hextends⟩
    | some input =>
      have hlive : (.heap, input) ::ₘ (.heap, msg.address) ::ₘ held collected =
          (.heap, msg.address) ::ₘ held ((collected.addAmount (sub64 (sub64
            (DepositAndInput.depositAmount msg) build.minerFeePerParty)
            build.operatorFeePerPlayer)).addInput ⟨input, DepositAndInput.input msg⟩) := by
        rw [held_addInput, held_addAmount, Multiset.cons_swap]
      simp only [released, acquired, Option.toList_some, List.map_singleton, Ledger.release_nil,
        Ledger.acquire_singleton, hlive, Stage.next, Stage.afterMalloc]
      simp only [Extends] at hextends
      refine decodeParty_spec msg ?_ hpayoutAddresses hadvices
      simp only [Extends, Collected.addAmount, Collected.addInput, List.length_append,
        List.length_singleton]
      grind

theorem decodeDeposit_spec (msg : ReceivedMessage) :
    wp accounts (fun result _ m => Decoded build result.1 result.2 m ∧ Extends collected result.2)
      (decodeDeposit build msg collected) globals
      ⟨⟨(.heap, msg.address) ::ₘ held collected, 0⟩, .arrived msg⟩ := by
  simp only [decodeDeposit, wp_bind, wp_accounts_issue]
  intro transaction
  cases transaction with
  | none =>
    simp only [wp_bind, wp_accounts_issue, wp_pure]
    intro _
    exact ⟨.inl (by simp), by simp [Extends]⟩
  | some transaction =>
    simp only [wp_bind, wp_accounts_issue]
    intro raw
    cases raw with
    | none =>
      simp only [wp_bind, wp_accounts_issue, wp_pure]
      intro _
      exact ⟨.inl (by simp [release_second]), by simp [Extends, Collected.addTransaction]⟩
    | some raw =>
      have hlive : (.heap, raw) ::ₘ (.transaction, transaction) ::ₘ (.heap, msg.address) ::ₘ
          held collected = (.heap, msg.address) ::ₘ held ((collected.addTransaction
            transaction).addRawTransaction ⟨raw, DepositAndInput.depositTransaction msg⟩) := by
        rw [held_addRawTransaction, held_addTransaction, Multiset.cons_swap (Owner.transaction, _),
          Multiset.cons_swap (Owner.heap, raw)]
      simp only [released, acquired, Option.toList_some, List.map_singleton, Ledger.release_nil,
        Ledger.acquire_singleton, hlive, Stage.next, Stage.afterMalloc, Stage.afterImport,
        Option.isSome_some, if_true]
      refine decodeInput_spec msg ?_ ?_ ?_ ?_
      · simp [Extends, Collected.addTransaction, Collected.addRawTransaction]
      · simp [Collected.addTransaction, Collected.addRawTransaction]
      · simp [Collected.addTransaction, Collected.addRawTransaction]
      · simp [Collected.addTransaction, Collected.addRawTransaction]

theorem Extends.bounded {after : Collected} (h : Extends collected after)
    (hbounded : Bounded players collected) : Bounded (players + 1) after where
  depositTransactions := by have := h.1; have := hbounded.depositTransactions; omega
  payoutAddresses := by have := h.2.1; have := hbounded.payoutAddresses; omega
  advices := by have := h.2.2.1; have := hbounded.advices; omega
  rawDepositTransactions := by have := h.2.2.2.1; have := hbounded.rawDepositTransactions; omega
  inputs := by have := h.2.2.2.2.1; have := hbounded.inputs; omega
  outputs := h.2.2.2.2.2.trans hbounded.outputs

/-- By induction on the indices: before each message the arrays hold what is live. -/
theorem collectDeposits_spec {account : Account} (indices : List Nat)
    (hbounded : Bounded players collected) (hkept : Decoded build 0 collected account) :
    wp accounts (fun result _ m => Decoded build result.1 result.2 m ∧
        Bounded (players + indices.length) result.2)
      (collectDeposits build indices collected) globals account := by
  induction indices generalizing globals players collected account with
  | nil => exact ⟨hkept, hbounded⟩
  | cons i rest ih =>
    obtain ⟨hledger, hfees, houtputs⟩ := hkept.resolve_right fun h => h.1 rfl
    have hmore : Bounded (players + (i :: rest).length) collected := hbounded.mono (by omega)
    simp only [collectDeposits, playerAt, wp_bind, wp_get]
    cases globals.players[i]?.join with
    | none => exact wp_deref_none.mpr trivial
    | some player =>
      simp only [wp_deref_some, wp_accounts_issue]
      intro msg
      cases msg with
      | none => exact ⟨.inl ⟨by simp [hledger], hfees, houtputs⟩, hmore⟩
      | some msg =>
        simp only [wp_bind, wp_ite, wp_accounts_issue, wp_pure]
        constructor
        · intro _ _
          exact ⟨.inl (by simp [hledger]), hmore⟩
        · intro _
          have hspec : wp accounts (fun result _ m => Decoded build result.1 result.2 m ∧
              Extends collected result.2) (decodeDeposit build msg collected) globals
              ⟨⟨(.heap, msg.address) ::ₘ held collected, 0⟩, .arrived msg⟩ := decodeDeposit_spec msg
          simp only [released, acquired, Option.toList_some, List.map_singleton,
            Ledger.release_nil, Ledger.acquire_singleton, hledger, Stage.next, Option.elim_some]
          refine wp_mono ?_ hspec
          rintro ⟨ret, collected'⟩ _ m ⟨hdecoded, hextends⟩
          have hbounded' : Bounded (players + 1) collected' := hextends.bounded hbounded
          constructor
          · intro _
            exact ⟨hdecoded, hbounded'.mono (by simp)⟩
          · intro hret
            obtain rfl : ret = 0 := not_not.mp hret
            rw [List.length_cons, Nat.add_comm rest.length, ← Nat.add_assoc]
            exact ih hbounded' hdecoded

end Collecting

section Evaluating
variable {build : Build} {globals : Globals}

/-- The outputs are allocated one by one up to the first failure. -/
theorem allocateOutputs_spec (count : Nat) {live : Multiset Object} {outputs : Nat} :
    wp accounts (fun buffers _ m => m.ledger = ⟨blocks buffers + live, 0⟩ ∧
        (buffers.length = count ∧ m.stage = .drawn (outputs + count) ∨
          buffers.length < count ∧ m.stage = .short (outputs + buffers.length)))
      (allocateOutputs count) globals ⟨⟨live, 0⟩, .drawn outputs⟩ := by
  induction count generalizing live outputs with
  | zero => exact ⟨by simp [blocks, objects], .inl ⟨rfl, rfl⟩⟩
  | succ count ih =>
    simp only [allocateOutputs, wp_bind, wp_accounts_issue]
    intro address
    cases address with
    | none => exact ⟨by simp [blocks, objects], .inr ⟨Nat.succ_pos _, rfl⟩⟩
    | some address =>
      simp only [wp_bind, wp_pure, released, acquired, Option.toList_some, List.map_singleton,
        Ledger.release_nil, Ledger.acquire_singleton, Stage.next, Option.isSome_some,
        Stage.afterMalloc]
      refine wp_mono ?_ ih
      rintro buffers _ m ⟨hledger, hstage⟩
      constructor
      · rw [hledger]
        simp [blocks, objects, ← Multiset.cons_coe]
      · rcases hstage with ⟨hlength, hstage⟩ | ⟨hlength, hstage⟩
        · refine .inl ⟨by simp [hlength], ?_⟩
          rw [hstage]
          congr 1
          omega
        · refine .inr ⟨by simpa using hlength, ?_⟩
          rw [hstage, List.length_cons]
          congr 1
          omega

theorem freeAll_spec (buffers : List Buffer) {ledger : Ledger Object} {stage : Stage} :
    wp accounts (fun _ _ m => m = ⟨ledger.release (blocks buffers), stage⟩) (freeAll buffers) globals
      ⟨ledger, stage⟩ := by
  induction buffers generalizing ledger with
  | nil => exact rfl
  | cons buffer rest ih =>
    simp only [freeAll, wp_bind, wp_accounts_issue]
    intro _
    refine wp_mono ?_ ih
    rintro _ _ m rfl
    simp [blocks, objects, Ledger.release]

/-- What the functionality leaves: its outputs are live, or they have been freed. -/
def Evaluated (build : Build) (live : Multiset Object) (evaluation : Evaluation) (account : Account) :
    Prop :=
  evaluation.outputs.length ≤ build.numPlayers ∧
    (account.ledger = ⟨blocks evaluation.outputs + live, 0⟩ ∧ ¬ account.stage.Uncovered build ∧
        ¬ account.stage.OutputsShort ∨
      evaluation.ret ≠ 0 ∧ evaluation.outputs ≠ [] ∧ account.ledger = ⟨live, 0⟩ ∧
        account.stage.OutputsShort)

theorem evaluateFunctionality_spec (deposits : List Nat) {live : Multiset Object} {stage : Stage}
    (hfees : ¬ stage.Uncovered build) (houtputs : ¬ stage.OutputsShort) :
    wp accounts (fun evaluation _ m => Evaluated build live evaluation m)
      (evaluateFunctionality build.numPlayers deposits) globals ⟨⟨live, 0⟩, stage⟩ := by
  simp only [evaluateFunctionality, wp_bind, wp_accounts_issue]
  intro random
  cases random with
  | none => exact ⟨Nat.zero_le _, .inl ⟨by simp [blocks, objects], hfees, houtputs⟩⟩
  | some random =>
    simp only [wp_bind, wp_ite, wp_pure]
    refine wp_mono ?_ (allocateOutputs_spec build.numPlayers)
    rintro buffers last m ⟨hledger, hstage⟩
    have hledger : m.ledger = ⟨blocks buffers + live, 0⟩ := by simpa using hledger
    rcases hstage with ⟨hlength, hstage⟩ | ⟨hlength, hstage⟩
    · constructor
      · exact fun hshort => absurd hlength hshort.ne
      · intro _
        have hblocks (winner : UInt32) : blocks (buffers.mapIdx (drawOutput winner)) = blocks buffers := by
          have haddresses : (buffers.mapIdx (drawOutput winner)).map Buffer.address =
              buffers.map Buffer.address := by
            refine List.ext_getElem (by simp) fun i _ _ => ?_
            simp [drawOutput]
          rw [blocks, haddresses, blocks]
        refine ⟨by simp [hlength], .inl ⟨?_, ?_, ?_⟩⟩
        · rw [hledger, hblocks]
        · simp [hstage]
        · simp [hstage]
    · constructor
      · intro _
        obtain ⟨ledger, stage⟩ := m
        refine wp_mono ?_ (freeAll_spec buffers)
        rintro _ _ m rfl
        cases hledger
        cases hstage
        refine ⟨hlength.le, ?_⟩
        rw [Ledger.release_live]
        by_cases hnone : buffers = []
        · subst hnone
          exact .inl ⟨by simp [blocks, objects], by simp, by simp⟩
        · have hpos := List.length_pos_of_ne_nil hnone
          exact .inr ⟨enomem_error, hnone, rfl, by simpa using hpos⟩
      · exact fun hlong => absurd hlength hlong

end Evaluating

section Settling
variable {build : Build} {globals : Globals} {live : Multiset Object} {account : Account}

/-- Nothing has been acquired that is not released, and no exit taken that forgets one. -/
def Unchanged (live : Multiset Object) (account : Account) : Prop := account = ⟨⟨live, 0⟩, .other⟩

theorem sendClearContract_spec (sighash txid : Blocks.Digest)
    (outputs depositTransactions : List Bytes) (indices : List Nat) :
    wp accounts (fun _ _ m => Unchanged live m)
      (sendClearContract sighash txid outputs depositTransactions indices) globals
      ⟨⟨live, 0⟩, .other⟩ := by
  induction indices generalizing globals with
  | nil => exact rfl
  | cons i rest ih =>
    simp only [sendClearContract, playerAt, wp_bind, wp_accounts_issue]
    intro msg
    cases msg with
    | none => simp [Unchanged]
    | some msg =>
      simp only [wp_bind, wp_get]
      cases globals.players[i]?.join with
      | none => exact wp_deref_none.mpr trivial
      | some player =>
        simp only [wp_deref_some, wp_accounts_issue, wp_ite, wp_pure]
        intro ret _
        simp only [released, acquired, Option.toList_some, List.map_singleton, Ledger.release_nil,
          Ledger.acquire_singleton, Ledger.acquire_nil, Ledger.release_cons_self, Stage.next,
          Stage.afterMalloc]
        exact ⟨fun _ => rfl, fun _ => ih⟩

theorem outputDeposits_spec (context : Pointer) (depositTransactions : List Bytes) :
    wp accounts (fun _ _ m => Unchanged live m) (outputDeposits context depositTransactions) globals
      ⟨⟨live, 0⟩, .other⟩ := by
  induction depositTransactions with
  | nil => exact rfl
  | cons depositTransaction rest ih =>
    simp only [outputDeposits, wp_bind, wp_accounts_issue, wp_ite, wp_pure]
    intro ret
    simp only [released, acquired, Ledger.release_nil, Ledger.acquire_nil, Stage.next]
    exact ⟨fun _ => rfl, fun _ => ih⟩

theorem signSettlement_spec (advices : List Pointer) (sighash : Blocks.Digest) :
    wp accounts (fun _ _ m => Unchanged live m) (signSettlement advices sighash) globals
      ⟨⟨live, 0⟩, .other⟩ := by
  simp only [signSettlement, wp_bind, wp_get]
  cases globals.depositWallet with
  | none => exact wp_deref_none.mpr trivial
  | some depositWallet =>
    rw [wp_deref_some]
    cases advices.head? with
    | none => exact wp_deref_none.mpr trivial
    | some advice =>
      simp only [wp_deref_some, wp_accounts_issue, wp_modify, wp_ite, wp_pure]
      intro signature
      simp [Unchanged]

theorem issueSettlement_spec (context : Pointer) (collateralTransaction merklePaths : Bytes)
    (memo : FixedBytes 512) (collected : Collected) (evaluation : Evaluation) {stage : Stage} :
    wp accounts (fun _ _ m => Unchanged live m)
      (issueSettlement build context collateralTransaction merklePaths memo collected evaluation)
      globals ⟨⟨live, 0⟩, stage⟩ := by
  simp only [issueSettlement, wp_bind, wp_accounts_issue, wp_modify]
  intro settlement
  cases settlement with
  | none => simp [Unchanged]
  | some settlement =>
    simp only [wp_bind, wp_accounts_issue]
    intro hashes
    simp only [released, acquired, Ledger.release_nil, Ledger.acquire_nil, Stage.next, wp_ite, wp_pure]
    refine wp_mono ?_ (sendClearContract_spec _ _ _ _ _)
    rintro ret _ m rfl
    refine ⟨fun _ => rfl, fun _ => ?_⟩
    rw [wp_bind]
    refine wp_mono ?_ (outputDeposits_spec _ _)
    rintro ret _ m rfl
    rw [wp_ite]
    exact ⟨fun _ => rfl, fun _ => signSettlement_spec _ _⟩

/-- How a call stands before its cleanup: the arrays hold what is live; or a message has been
forgotten; or the outputs in the array have been freed already. -/
def Stands (build : Build) (collected : Collected) (account : Account) : Prop :=
  Bounded build.numPlayers { collected with outputs := [] } ∧
    collected.outputs.length ≤ build.numPlayers ∧
    (account.ledger = ⟨blocks collected.outputs + held collected, 0⟩ ∧
        ¬ account.stage.Uncovered build ∧ ¬ account.stage.OutputsShort ∨
      Leaks build (blocks collected.outputs + held collected) account ∧
        ¬ account.stage.OutputsShort ∨
      account.ledger = ⟨held collected, 0⟩ ∧ collected.outputs ≠ [] ∧ account.stage.OutputsShort)

theorem settle_spec (context : Pointer) (collateralTransaction merklePaths : Bytes)
    (memo : FixedBytes 512) {collected : Collected} (hbounded : Bounded build.numPlayers collected)
    (hkept : Decoded build 0 collected account) :
    wp accounts (fun result _ m => Stands build result.2 m)
      (settle build context collateralTransaction merklePaths memo collected) globals account := by
  obtain ⟨hledger, hfees, houtputs⟩ := hkept.resolve_right fun h => h.1 rfl
  obtain ⟨ledger, stage⟩ := account
  cases hledger
  simp only [settle, wp_bind, wp_ite, wp_pure]
  refine wp_mono ?_ (evaluateFunctionality_spec collected.depositAmounts.tail hfees houtputs)
  rintro evaluation last m ⟨hlength, hevaluated⟩
  have hheld : held { collected with outputs := evaluation.outputs } = held collected := rfl
  constructor
  · intro _
    refine ⟨hbounded.outputs ▸ hbounded, hlength, ?_⟩
    rcases hevaluated with hlive | ⟨_, hsome, hfreed, hshort⟩
    · exact .inl hlive
    · exact .inr (.inr ⟨hfreed, hsome, hshort⟩)
  · intro hret
    obtain ⟨hledger, -, -⟩ := hevaluated.resolve_right fun h => hret h.1
    obtain ⟨ledger, stage⟩ := m
    cases hledger
    refine wp_mono ?_ (issueSettlement_spec _ _ _ _ _ _)
    rintro ret _ m rfl
    exact ⟨hbounded.outputs ▸ hbounded, hlength, .inl ⟨rfl, by simp, by simp⟩⟩

theorem Decoded.stands {ret : Int32} {collected : Collected}
    (hbounded : Bounded build.numPlayers collected) (h : Decoded build ret collected account) :
    Stands build collected account := by
  have hblocks : (blocks collected.outputs : Multiset Object) + held collected = held collected := by
    rw [hbounded.outputs]
    exact zero_add _
  refine ⟨hbounded.outputs ▸ hbounded, by simp [hbounded.outputs], ?_⟩
  rw [hblocks]
  rcases h with hkept | ⟨_, hleaks⟩
  · exact .inl hkept
  · refine .inr (.inl ⟨hleaks, ?_⟩)
    obtain ⟨_, _, hfees⟩ := hleaks
    obtain ⟨ledger, stage⟩ := account
    cases stage with
    | copied => simp
    | _ => exact absurd hfees (by simp)

/-- The operator's own entries. -/
theorem decoded_operator {addresses advices transactions : List Pointer} {depositAmounts : List Nat}
    (haddresses : addresses.length ≤ 1) (hadvices : advices.length ≤ 1)
    (htransactions : transactions.length ≤ 1) {live : Multiset Object}
    (hlive : live = objects .transaction transactions + objects .address addresses +
      objects .advice advices) :
    Bounded 0 ⟨addresses, advices, transactions, depositAmounts, [], [], []⟩ ∧
      Decoded build 0 ⟨addresses, advices, transactions, depositAmounts, [], [], []⟩
        ⟨⟨live, 0⟩, .other⟩ := by
  constructor
  · exact ⟨htransactions, haddresses, hadvices, Nat.le_refl _, Nat.le_refl _, rfl⟩
  · have hheld : live = held ⟨addresses, advices, transactions, depositAmounts, [], [], []⟩ := by
      simp [held, partyObjects, blocks, objects, hlive]
    rw [hheld]
    exact .inl ⟨rfl, by simp, by simp⟩

theorem clearContract_spec (context : Pointer)
    (payoutAddress collateralTransaction merklePaths : Bytes) :
    wp accounts (fun result _ m => Stands build result.2 m)
      (clearContract build context payoutAddress collateralTransaction merklePaths) globals {} := by
  -- every exit before the loop over the players leaves what the arrays hold
  have hexit {collected : Collected} {m : Account}
      (hoperator : Bounded 0 collected ∧ Decoded build 0 collected m) : Stands build collected m :=
    hoperator.2.stands (hoperator.1.mono (Nat.zero_le _))
  simp only [clearContract, wp_bind, wp_accounts_issue]
  intro memo address
  cases address with
  | none => exact hexit (decoded_operator (by simp) (by simp) (by simp) (by simp [objects]))
  | some address =>
    simp only [wp_bind, wp_get]
    cases globals.depositWallet with
    | none => exact wp_deref_none.mpr trivial
    | some depositWallet =>
      simp only [wp_deref_some, wp_accounts_issue]
      intro advice
      cases advice with
      | none => exact hexit (decoded_operator (by simp) (by simp) (by simp) (by simp [objects]))
      | some advice =>
        simp only [wp_bind, wp_accounts_issue]
        intro transaction
        cases transaction with
        | none =>
          refine hexit (decoded_operator (by simp) (by simp) (by simp) ?_)
          simp [objects, ← Multiset.singleton_add]
          abel
        | some transaction =>
          simp only [wp_bind, wp_accounts_issue, wp_ite, wp_pure]
          intro collateral
          have hoperator {depositAmounts : List Nat} :=
            @decoded_operator build [address] [advice] [transaction] depositAmounts (by simp) (by simp)
              (by simp) ((.transaction, transaction) ::ₘ (.advice, advice) ::ₘ
                (.address, address) ::ₘ 0) (by simp [objects, ← Multiset.singleton_add]; abel)
          constructor
          · intro _
            exact hexit hoperator
          · intro _
            refine wp_mono ?_ (collectDeposits_spec (List.range build.numPlayers) hoperator.1
              hoperator.2)
            rintro ⟨ret, collected⟩ last m ⟨hdecoded, hbounded⟩
            rw [List.length_range, Nat.zero_add] at hbounded
            constructor
            · exact fun _ => hdecoded.stands hbounded
            · intro hret
              obtain rfl : ret = 0 := not_not.mp hret
              exact settle_spec _ _ _ _ hbounded hdecoded

end Settling

section Cleanup
variable {globals : Globals} {ledger : Ledger Object} {stage : Stage}

/-- A call that releases one object and does nothing else. -/
def Releases (release : Pointer → Call Callback Unit) (owner : Owner) : Prop :=
  ∀ pointer, released (release pointer) = [(owner, pointer)] ∧
    acquired (release pointer) () = [] ∧ ∀ stage : Stage, stage.next (release pointer) () = stage

/-- The objects released at an index. -/
def objectsAt (owner : Owner) (pointers : List Pointer) (i : Nat) : List Object :=
  objects owner pointers[i]?.toList

theorem releaseAt_spec {release : Pointer → Call Callback Unit} {owner : Owner}
    (hreleases : Releases release owner) (pointers : List Pointer) (i : Nat)
    {post : Unit → Globals → Account → Prop}
    (hpost : post () globals ⟨ledger.release (objectsAt owner pointers i), stage⟩) :
    wp accounts post (releaseAt release pointers i) globals ⟨ledger, stage⟩ := by
  unfold releaseAt
  unfold objectsAt at hpost
  cases hpointer : pointers[i]? with
  | none =>
    rw [hpointer] at hpost
    exact hpost
  | some pointer =>
    obtain ⟨hreleased, hacquired, hnext⟩ := hreleases pointer
    rw [wp_accounts_issue]
    intro answer
    rw [hpointer] at hpost
    rw [hreleased, hacquired, hnext, Ledger.acquire_nil]
    exact hpost

/-- What `releaseObjects` releases. -/
def partyList (collected : Collected) (indices : List Nat) : List Object :=
  indices.flatMap fun i => objectsAt .transaction collected.depositTransactions i ++
    (objectsAt .address collected.payoutAddresses i ++ objectsAt .advice collected.advices i)

theorem releaseObjects_spec (collected : Collected) (indices : List Nat) :
    wp accounts (fun _ _ m => m = ⟨ledger.release (partyList collected indices), stage⟩)
      (releaseObjects collected indices) globals ⟨ledger, stage⟩ := by
  induction indices generalizing ledger with
  | nil => exact rfl
  | cons i rest ih =>
    have htransaction : Releases .zcashReleaseTransaction .transaction := fun _ => ⟨rfl, rfl, fun _ => rfl⟩
    have haddress : Releases .zcashReleaseAddress .address := fun _ => ⟨rfl, rfl, fun _ => rfl⟩
    have hadvice : Releases .zcashReleaseAdvice .advice := fun _ => ⟨rfl, rfl, fun _ => rfl⟩
    simp only [releaseObjects, wp_bind]
    refine releaseAt_spec htransaction _ _ (releaseAt_spec haddress _ _ (releaseAt_spec hadvice _ _ ?_))
    rw [partyList, List.flatMap_cons, Ledger.release_append, Ledger.release_append,
      Ledger.release_append]
    exact ih

/-- What `freeBuffers` releases. -/
def bufferList (collected : Collected) (indices : List Nat) : List Object :=
  indices.flatMap fun i =>
    objectsAt .heap (collected.rawDepositTransactions.map Buffer.address) i ++
      (objectsAt .heap (collected.inputs.map Buffer.address) i ++
        objectsAt .heap (collected.outputs.map Buffer.address) i)

theorem freeBuffers_spec (collected : Collected) (indices : List Nat) :
    wp accounts (fun _ _ m => m = ⟨ledger.release (bufferList collected indices), stage⟩)
      (freeBuffers collected indices) globals ⟨ledger, stage⟩ := by
  induction indices generalizing ledger with
  | nil => exact rfl
  | cons i rest ih =>
    have hfree : Releases .free .heap := fun _ => ⟨rfl, rfl, fun _ => rfl⟩
    simp only [freeBuffers, wp_bind]
    refine releaseAt_spec hfree _ _ (releaseAt_spec hfree _ _ (releaseAt_spec hfree _ _ ?_))
    rw [bufferList, List.flatMap_cons, Ledger.release_append, Ledger.release_append,
      Ledger.release_append]
    exact ih

/-- Every index of an array is visited. -/
theorem flatMap_objectsAt (owner : Owner) {pointers : List Pointer} {count : Nat}
    (h : pointers.length ≤ count) :
    (List.range count).flatMap (objectsAt owner pointers) = objects owner pointers := by
  induction pointers generalizing count with
  | nil => simp [objectsAt, objects]
  | cons pointer rest ih =>
    obtain ⟨count, rfl⟩ : ∃ less, count = less + 1 := ⟨count - 1, by simp at h; omega⟩
    have hrest : (List.range count).flatMap (objectsAt owner rest) = objects owner rest :=
      ih (by simpa using h)
    rw [List.range_succ_eq_map, List.flatMap_cons, List.flatMap_map]
    exact congrArg ((owner, pointer) :: ·) hrest

/-- What three arrays release at the same indices, each array on its own. -/
theorem coe_flatMap_append (first second third : Nat → List Object) (indices : List Nat) :
    (indices.flatMap (fun i => first i ++ (second i ++ third i)) : Multiset Object) =
      (indices.flatMap first : Multiset Object) + (indices.flatMap second : Multiset Object) +
        (indices.flatMap third : Multiset Object) := by
  induction indices with
  | nil => rfl
  | cons i rest ih =>
    simp only [List.flatMap_cons, ← Multiset.coe_add, ih]
    abel

theorem coe_partyList {players : Nat} {collected : Collected} (h : Bounded players collected) :
    (partyList collected (List.range (players + 1)) : Multiset Object) = partyObjects collected := by
  rw [partyList, coe_flatMap_append, flatMap_objectsAt _ h.depositTransactions,
    flatMap_objectsAt _ h.payoutAddresses, flatMap_objectsAt _ h.advices, partyObjects]

theorem coe_bufferList {players : Nat} {collected : Collected}
    (h : Bounded players { collected with outputs := [] })
    (houtputs : collected.outputs.length ≤ players) :
    (bufferList collected (List.range players) : Multiset Object) =
      (blocks collected.rawDepositTransactions : Multiset Object) +
        (blocks collected.inputs : Multiset Object) +
        (blocks collected.outputs : Multiset Object) := by
  have hraw : (collected.rawDepositTransactions.map Buffer.address).length ≤ players := by
    simpa using h.rawDepositTransactions
  have hinputs : (collected.inputs.map Buffer.address).length ≤ players := by simpa using h.inputs
  have houtputs : (collected.outputs.map Buffer.address).length ≤ players := by simpa using houtputs
  rw [bufferList, coe_flatMap_append, flatMap_objectsAt _ hraw, flatMap_objectsAt _ hinputs,
    flatMap_objectsAt _ houtputs]
  rfl

end Cleanup

section Result
variable {build : Build} {globals : Globals}

/-- Everything has been released exactly once, unless an exit that fails to has been taken. -/
def Cleaned (build : Build) (account : Account) : Prop :=
  account.ledger = ⟨0, 0⟩ ↔ ¬ account.stage.Uncovered build ∧ ¬ account.stage.OutputsShort

/-- The cleanup releases what the arrays hold, whatever is live. -/
theorem Stands.cleaned {collected : Collected} {account : Account}
    (h : Stands build collected account) :
    Cleaned build ⟨(account.ledger.release
      (partyList collected (List.range (build.numPlayers + 1)))).release
        (bufferList collected (List.range build.numPlayers)), account.stage⟩ := by
  obtain ⟨hbounded, houtputs, hledger⟩ := h
  have hall : ((partyList collected (List.range (build.numPlayers + 1)) ++
      bufferList collected (List.range build.numPlayers) : List Object) : Multiset Object) =
      blocks collected.outputs + held collected := by
    rw [← Multiset.coe_add, coe_bufferList hbounded houtputs]
    have hparty := coe_partyList hbounded
    have hsame : partyList { collected with outputs := [] } = partyList collected := rfl
    have hobjects : partyObjects { collected with outputs := [] } = partyObjects collected := rfl
    rw [hsame, hobjects] at hparty
    rw [hparty, held]
    abel
  rw [Cleaned, ← Ledger.release_append]
  rcases hledger with ⟨hlive, hfees, hshort⟩ | ⟨⟨address, hlive, hfees⟩, _⟩ | ⟨hlive, hsome, hshort⟩
  · have hnone := Ledger.release_live (partyList collected (List.range (build.numPlayers + 1)) ++
      bufferList collected (List.range build.numPlayers)) 0 0
    rw [hall, add_zero, ← hlive] at hnone
    exact iff_of_true hnone ⟨hfees, hshort⟩
  · have hmessage := Ledger.release_live (partyList collected (List.range (build.numPlayers + 1)) ++
      bufferList collected (List.range build.numPlayers)) {(.heap, address)} 0
    rw [hall, add_comm, Multiset.singleton_add, ← hlive] at hmessage
    refine iff_of_false ?_ fun hnone => hnone.1 hfees
    rw [hmessage]
    simp
  · refine iff_of_false (Ledger.release_excess ?_) fun hnone => hnone.2 hshort
    have hcard := congrArg Multiset.card hall
    have houtputs : 0 < (blocks collected.outputs).length := by
      simpa [blocks, objects] using List.length_pos_of_ne_nil hsome
    rw [Multiset.coe_card, Multiset.card_add, Multiset.coe_card] at hcard
    rw [hlive]
    simp only
    omega

theorem ecallClearContractImpl_spec (context : Pointer)
    (payoutAddress collateralTransaction merklePaths : Bytes) :
    wp accounts (fun _ _ m => Cleaned build m)
      (ecallClearContractImpl build context payoutAddress collateralTransaction merklePaths)
      globals {} := by
  simp only [ecallClearContractImpl, wp_bind]
  refine wp_mono ?_ (clearContract_spec context payoutAddress collateralTransaction merklePaths)
  rintro ⟨ret, collected⟩ last account hstands
  have hcleaned := hstands.cleaned
  refine wp_mono ?_ (releaseObjects_spec collected (List.range (build.numPlayers + 1)))
  rintro _ last m rfl
  refine wp_mono ?_ (freeBuffers_spec collected (List.range build.numPlayers))
  rintro _ last m rfl
  simp only [wp_ite, wp_bind, wp_get, wp_pure]
  constructor
  · intro _
    cases last.unauthorizedSettlement with
    | none => exact hcleaned
    | some settlement =>
      simp only [wp_bind, wp_accounts_issue, wp_modify, wp_pure, released, acquired,
        Ledger.release_nil, Ledger.acquire_nil, Stage.next]
      intro _
      exact hcleaned
  · exact fun _ => hcleaned

/-- What a call that clears the contract has acquired locally it has released exactly once,
unless a deposit does not cover the fees or an output after the first cannot be allocated. -/
theorem clear_contract_balanced_iff (build : Build) {globals last : Globals}
    {events : List (Event (Call Callback))} {ret : Int32} {context : Pointer}
    {payoutAddress collateralTransaction merklePaths : Bytes}
    (hrun : Exec (ecallClearContractImpl build context payoutAddress collateralTransaction
      merklePaths) globals events last (some ret)) :
    Balanced events ↔
      ¬ (accountOf events).stage.Uncovered build ∧ ¬ (accountOf events).stage.OutputsShort :=
  hrun.returned (ecallClearContractImpl_spec context payoutAddress collateralTransaction merklePaths)

end Result

section Examples
open Blocks (zeroBuild)

/-- All players send this message, and no buffer can be allocated from this time on. -/
def depositHost (msg : ReceivedMessage) (full : Nat) {β : Type} (time : Nat) :
    Call Callback β → Option β
  | .malloc _ => some (if time < full then some 1 else none)
  | c => obligingHost (fun _ _ => some msg) (fun _ => 0) time c

def depositPlay (msg : ReceivedMessage) (full : Nat) :
    List (Event (Call Callback)) × Globals × Option Int32 :=
  play (depositHost msg full) 0 (ecallClearContractImpl zeroBuild 0 [1] [2] [3])
    { DepositDecoding.connected with depositWallet := some ⟨1, 1, 1⟩ }

/-- A deposit of nothing. -/
def emptyDeposit : ReceivedMessage :=
  (Message.mk msgDepositAndInput (DepositAndInput.encode 0 [1] [2] (FixedBytes.zero 43).val
    (FixedBytes.zero 128).val)).received (by decide) (by decide +kernel)

theorem depositPlay_run {msg : ReceivedMessage} {full : Nat} {ret : Int32}
    (hresult : (depositPlay msg full).2.2 = some ret) :
    Exec (ecallClearContractImpl zeroBuild 0 [1] [2] [3])
      { DepositDecoding.connected with depositWallet := some ⟨1, 1, 1⟩ }
      (depositPlay msg full).1 (depositPlay msg full).2.1 (some ret) :=
  hresult ▸ exec_play (depositHost msg full) 0 _ _

theorem clear_contract_balanced_played : ∃ (events : List (Event (Call Callback))) (last : Globals),
    Exec (ecallClearContractImpl zeroBuild 0 [1] [2] [3])
      { DepositDecoding.connected with depositWallet := some ⟨1, 1, 1⟩ } events last (some 0) ∧
      Balanced events := by
  have hrun := depositPlay_run (show (depositPlay (DepositDecoding.smallMessage 0) 1000).2.2 = some 0
    by decide +kernel)
  exact ⟨_, _, hrun, (clear_contract_balanced_iff zeroBuild hrun).mpr (by decide +kernel)⟩

/-- The message of an empty deposit is never released. With room for one output only, that
output is released twice. -/
theorem clear_contract_unbalanced :
    (∃ (events : List (Event (Call Callback))) (last : Globals),
      Exec (ecallClearContractImpl zeroBuild 0 [1] [2] [3])
        { DepositDecoding.connected with depositWallet := some ⟨1, 1, 1⟩ } events last
        (some (-einval)) ∧ (accountOf events).ledger.live ≠ 0) ∧
    ∃ (events : List (Event (Call Callback))) (last : Globals),
      Exec (ecallClearContractImpl zeroBuild 0 [1] [2] [3])
        { DepositDecoding.connected with depositWallet := some ⟨1, 1, 1⟩ } events last
        (some (-enomem)) ∧ (accountOf events).ledger.excess ≠ 0 := by
  constructor
  · have hrun := depositPlay_run (show (depositPlay emptyDeposit 1000).2.2 = some (-einval) by
      decide +kernel)
    have hlive : (accountOf (depositPlay emptyDeposit 1000).1).ledger.live.card = 1 := by
      decide +kernel
    refine ⟨_, _, hrun, fun hnone => ?_⟩
    rw [hnone] at hlive
    cases hlive
  · have hrun := depositPlay_run (show (depositPlay (DepositDecoding.smallMessage 0) 55).2.2 =
      some (-enomem) by decide +kernel)
    have hexcess : (accountOf (depositPlay (DepositDecoding.smallMessage 0) 55).1).ledger.excess.card =
        1 := by
      decide +kernel
    refine ⟨_, _, hrun, fun hnone => ?_⟩
    rw [hnone] at hexcess
    cases hexcess

end Examples

end Auntie.Guarantees.LocalObjects

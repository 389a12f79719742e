import Auntie.Guarantees.Handles
import Auntie.Source.Operator.Entry

/-!
# Handles of the operator's enclave

The wallet, the settlement and the operator's signature on it, kept in the static variables of
`core.c` from one ECALL to another. The authorization consumes the settlement and copies the
signatures. The operator's signature is released then, and its address stays in the static
variable; the state machine never looks at it again.
-/

namespace Auntie.Guarantees.OperatorHandles
open Auntie.Source Auntie.Source.Operator Auntie.Interaction Handles
open Blocks (Digest)

section Statement

/-- The handles in the static variables of `core.c`. -/
def owned (globals : Globals) : List Object :=
  globals.depositWallet.elim [] walletObjects ++
    globals.unauthorizedSettlement.toList.map (.partialTransaction, ·) ++
    globals.operatorSignature.toList.map (.signature, ·)

/-- The kinds of objects that no call is handed after they have been given back, whether or not
they are kept. -/
def lasting : List Owner := [.key, .partialTransaction, .signature]

/-- The settlement that is authorized, and the signatures it is authorized with. -/
def combines {β : Type} : Call Callback β → Option (Pointer × List Pointer)
  | .zcashAuthorizeTransaction settlement signatures => some (settlement, signatures)
  | _ => none

/-- A live settlement with a live signature of each party, the first one of the run. -/
structure Combined (numPlayers : Nat) (m : Memory) (settlement : Pointer)
    (signatures : List Pointer) : Prop where
  whole : (.partialTransaction, settlement) ∈ m.live
  each : ∀ signature ∈ signatures, (.signature, signature) ∈ m.live
  length : signatures.length = numPlayers + 1
  nodup : signatures.Nodup
  first : m.authorized = 0

/-- No call is handed a handle that is not live, and one settlement at most is authorized. -/
structure Sound (numPlayers : Nat) {β : Type} (globals : Globals) (m : Memory)
    (c : Call Callback β) : Prop where
  calls : Handles.Sound lasting (owned globals) globals.depositWallet.toList m c
  authorizes : ∀ settlement signatures, combines c = some (settlement, signatures) →
    Combined numPlayers m settlement signatures

/-- Between two ECALLs the wallet and the settlement are live, and the signature as long as it can
be used. -/
structure Kept (globals : Globals) (m : Memory) : Prop where
  wallet : ∀ wallet, globals.depositWallet = some wallet → ∀ object ∈ walletObjects wallet,
    object ∈ m.live
  settlement : ∀ settlement, globals.unauthorizedSettlement = some settlement →
    (.partialTransaction, settlement) ∈ m.live
  cleared : globals.state = .clearedContract → ∃ settlement signature,
    globals.unauthorizedSettlement = some settlement ∧
      (.partialTransaction, settlement) ∈ m.live ∧
      globals.operatorSignature = some signature ∧ (.signature, signature) ∈ m.live

end Statement

section Calls
variable {numPlayers count : Nat} {kept : List Object} {globals : Globals} {m : Memory}

/-- The wallet in the static variable. -/
def walletOf (globals : Globals) : List Object := globals.depositWallet.elim [] walletObjects

/-- A call is sound that is handed no settlement, key or signature but those that are live. -/
theorem sound_of {β : Type} {c : Call Callback β} (hwallet : walletOf globals ⊆ kept)
    (hm : Keeping kept count m) (htouched : ∀ object ∈ touched c, object.1 ∈ lasting → object ∈ kept)
    (hcombines : combines c = none) : Sound numPlayers globals m c := by
  refine ⟨⟨?_, ?_⟩, fun settlement signatures hsome => ?_⟩
  · intro object hobject hheld
    by_cases hkind : object.1 ∈ lasting
    · exact hm.live object (htouched object hobject hkind)
    · have hown := hheld.resolve_left hkind
      simp only [owned, List.mem_append, List.mem_map] at hown
      rcases hown with (hown | ⟨_, _, rfl⟩) | ⟨_, _, rfl⟩
      · exact hm.live object (hwallet hown)
      · simp [lasting] at hkind
      · simp [lasting] at hkind
  · intro wallet hsome _ _ _
    have hstruct : (.heap, wallet.struct) ∈ walletOf globals := by
      rw [walletOf, Option.mem_toList.mp hsome]
      exact List.mem_cons_self
    exact hm.live _ (hwallet hstruct)
  · rw [hcombines] at hsome
    cases hsome

theorem Plain.combines_none {β : Type} {c : Call Callback β} (h : Plain kept c) :
    combines c = none := by
  cases c with
  | zcashAuthorizeTransaction => exact absurd h id
  | _ => rfl

theorem guarded (hwallet : walletOf globals ⊆ kept) :
    Guarded (@Sound numPlayers) kept count globals := by
  intro β m c hm hplain
  apply sound_of hwallet hm
  · intro object hobject hkind
    rcases hplain.touched object hobject with hheap | htransaction | hkept
    · exact absurd (hheap ▸ hkind) (by decide)
    · exact absurd (htransaction ▸ hkind) (by decide)
    · exact hkept
  · exact Plain.combines_none hplain

variable {α β : Type} {c : Call Callback β} {f : β → Code α} {post : α → Globals → Memory → Prop}

/-- A call that is handed other objects, and gives back none of the handles. -/
theorem other_spec (hwallet : walletOf globals ⊆ kept) (hm : Keeping kept count m)
    (htouched : ∀ object ∈ touched c, object.1 ∈ lasting → object ∈ kept)
    (hcombines : combines c = none) (hspares : Spares kept c)
    (hnext : ∀ answer m', Outside kept c answer → Keeping (acquired c answer ++ kept) count m' →
      (handles (@Sound numPlayers)).wp post (f answer) globals m') :
    (handles (@Sound numPlayers)).wp post (issue c >>= f) globals m := by
  apply call_spec hm (sound_of hwallet hm htouched hcombines) hspares
  · cases c with
    | zcashAuthorizeTransaction => cases hcombines
    | _ => rfl
  · exact hnext

end Calls

section Initialize
variable {numPlayers count : Nat} {kept : List Object} {globals : Globals} {m : Memory}

theorem release_sound {β : Type} (m : Memory) (c : Call Callback β)
    (h : Handles.Sound lasting (owned globals) globals.depositWallet.toList m c)
    (hinternal : c.Internal) : Sound numPlayers globals m c := by
  refine ⟨h, fun settlement signatures hsome => ?_⟩
  cases c with
  | zcashAuthorizeTransaction => exact absurd hinternal id
  | _ => cases hsome

def setWallet (globals : Globals) (depositWallet : Option Wallet) : Globals :=
  { globals with depositWallet := depositWallet }

theorem guarded_setWallet {depositWallet : Option Wallet}
    (h : depositWallet.elim [] walletObjects ⊆ kept) :
    Guarded (@Sound numPlayers) kept count (setWallet globals depositWallet) := guarded h

theorem dropWallet_spec {wallet : Wallet} (hm : Keeping (walletObjects wallet ++ kept) count m)
    (houtside : ∀ object ∈ walletObjects wallet, object ∉ kept) :
    (handles (@Sound numPlayers)).wp
      (Steady kept count (setWallet globals (some wallet)) fun _ => True)
      (zcashReleaseWallet wallet) (setWallet globals (some wallet)) m := by
  refine zcashReleaseWallet_spec release_sound hm houtside ?_
  intro other hother object _ _
  obtain rfl : other = wallet := List.mem_singleton.mp hother
  exact List.mem_cons_self

/-- What an initialization leaves: a wallet, or nothing. -/
def Initialized (kept : List Object) (count : Nat) (globals last : Globals) (m : Memory) : Prop :=
  ∃ depositWallet, last = setWallet globals depositWallet ∧ Created kept count depositWallet m

theorem ecallInitializeImpl_spec (context : Pointer) (hwallet : walletOf globals ⊆ kept)
    (hm : Keeping kept count m) :
    (handles (@Sound numPlayers)).wp (fun _ last m' => Initialized kept count globals last m')
      (ecallInitializeImpl context) globals m := by
  have hdropped : ∀ {m : Memory}, Keeping kept count m →
      Initialized kept count globals (setWallet globals none) m :=
    fun hm => ⟨none, rfl, hm, List.forall_mem_nil _⟩
  unfold ecallInitializeImpl
  apply create_spec (fun more hmore => guarded (List.Subset.trans hwallet hmore)) hm
  intro depositWallet m1 hcreated
  apply modify_spec
  cases depositWallet with
  | none => exact ⟨none, rfl, hcreated⟩
  | some depositWallet =>
    have hsub : walletObjects depositWallet ⊆ walletObjects depositWallet ++ kept :=
      List.subset_append_left _ _
    have hguarded : Guarded (@Sound numPlayers) (walletObjects depositWallet ++ kept) count
        (setWallet globals (some depositWallet)) := guarded_setWallet hsub
    have haddress : (.address, depositWallet.address) ∈ walletObjects depositWallet ++ kept := by
      simp [walletObjects]
    refine bind_spec (zcashExport_spec hguarded hcreated.keeping haddress (List.forall_mem_nil _)) ?_
    intro exported m2 hexported hm2
    cases exported with
    | error ret =>
      refine bind_spec (dropWallet_spec hm2 hcreated.outside) ?_
      intro _ m3 _ hm3
      exact hdropped hm3
    | ok depositAddress =>
      apply step_spec hguarded hm2
      · trivial
      · exact List.forall_mem_nil _
      intro ret m3 _ hm3
      apply step_spec hguarded hm3
      · trivial
      · exact List.forall_mem_singleton.mpr hexported
      intro _ m4 _ hm4
      split
      · refine bind_spec (dropWallet_spec hm4 hcreated.outside) ?_
        intro _ m5 _ hm5
        exact hdropped hm5
      · exact ⟨some depositWallet, rfl, hm4, hcreated.outside⟩

end Initialize

section Collect
variable {numPlayers count : Nat} {kept : List Object} {globals : Globals} {m : Memory}

/-- The objects in the local arrays. -/
def collectedObjects (collected : Collected) : List Object :=
  collected.payoutAddresses.map (.address, ·) ++ collected.advices.map (.advice, ·) ++
    collected.depositTransactions.map (.transaction, ·) ++
    collected.rawDepositTransactions.map (fun raw => (.heap, raw.address)) ++
    collected.inputs.map (fun input => (.heap, input.address)) ++
    collected.outputs.map (fun output => (.heap, output.address))

/-- None of them is one of the handles. -/
def Apart (kept : List Object) (collected : Collected) : Prop :=
  ∀ object ∈ collectedObjects collected, object ∉ kept

variable {collected : Collected}

theorem Apart.add {later : Collected} {new : Object} (h : Apart kept collected) (hnew : new ∉ kept)
    (hsub : collectedObjects later ⊆ new :: collectedObjects collected) : Apart kept later := by
  intro object hobject
  rcases List.mem_cons.mp (hsub hobject) with rfl | hold
  · exact hnew
  · exact h object hold

theorem Apart.addTransaction (h : Apart kept collected) {transaction : Pointer}
    (hnew : (.transaction, transaction) ∉ kept) :
    Apart kept (collected.addTransaction transaction) := by
  refine h.add hnew fun object hobject => ?_
  simp only [collectedObjects, Collected.addTransaction, List.map_append, List.mem_append,
    List.map_cons, List.map_nil, List.mem_cons, List.not_mem_nil] at hobject ⊢
  tauto

theorem Apart.addRawTransaction (h : Apart kept collected) {raw : Buffer}
    (hnew : (.heap, raw.address) ∉ kept) : Apart kept (collected.addRawTransaction raw) := by
  refine h.add hnew fun object hobject => ?_
  simp only [collectedObjects, Collected.addRawTransaction, List.map_append, List.mem_append,
    List.map_cons, List.map_nil, List.mem_cons, List.not_mem_nil] at hobject ⊢
  tauto

theorem Apart.addInput (h : Apart kept collected) {input : Buffer}
    (hnew : (.heap, input.address) ∉ kept) : Apart kept (collected.addInput input) := by
  refine h.add hnew fun object hobject => ?_
  simp only [collectedObjects, Collected.addInput, List.map_append, List.mem_append,
    List.map_cons, List.map_nil, List.mem_cons, List.not_mem_nil] at hobject ⊢
  tauto

theorem Apart.addPayoutAddress (h : Apart kept collected) {payoutAddress : Pointer}
    (hnew : (.address, payoutAddress) ∉ kept) :
    Apart kept (collected.addPayoutAddress payoutAddress) := by
  refine h.add hnew fun object hobject => ?_
  simp only [collectedObjects, Collected.addPayoutAddress, List.map_append, List.mem_append,
    List.map_cons, List.map_nil, List.mem_cons, List.not_mem_nil] at hobject ⊢
  tauto

theorem Apart.addAdvice (h : Apart kept collected) {advice : Pointer}
    (hnew : (.advice, advice) ∉ kept) : Apart kept (collected.addAdvice advice) := by
  refine h.add hnew fun object hobject => ?_
  simp only [collectedObjects, Collected.addAdvice, List.map_append, List.mem_append,
    List.map_cons, List.map_nil, List.mem_cons, List.not_mem_nil] at hobject ⊢
  tauto

/-- What the decoding leaves. -/
abbrev Decoding (kept : List Object) (count : Nat) (globals : Globals) :
    Int32 × Collected → Globals → Memory → Prop :=
  Steady kept count globals fun result => Apart kept result.2

variable (hguarded : Guarded (@Sound numPlayers) kept count globals) (h : Apart kept collected)
variable {msg : ReceivedMessage} (hmsg : (.heap, msg.address) ∉ kept)
include hguarded

section Decode
include hmsg

/-- The message is freed. -/
theorem freed_spec {value : Int32 × Collected} (hm : Keeping kept count m)
    (hvalue : Apart kept value.2) :
    (handles (@Sound numPlayers)).wp (Decoding kept count globals)
      (issue (.free msg.address) >>= fun _ => pure value) globals m := by
  apply step_spec hguarded hm
  · trivial
  · exact List.forall_mem_singleton.mpr hmsg
  exact fun _ _ _ hm' => ⟨rfl, hm', hvalue⟩

include h

theorem decodeParty_spec (hm : Keeping kept count m) :
    (handles (@Sound numPlayers)).wp (Decoding kept count globals) (decodeParty msg collected)
      globals m := by
  unfold decodeParty
  apply step_spec hguarded hm
  · trivial
  · exact List.forall_mem_nil _
  intro payoutAddress m1 hpayout hm1
  cases payoutAddress with
  | none => exact freed_spec hguarded hmsg hm1 h
  | some payoutAddress =>
    have hadded : Apart kept (collected.addPayoutAddress payoutAddress) :=
      h.addPayoutAddress (hpayout _ (List.mem_singleton.mpr rfl))
    apply step_spec hguarded hm1
    · trivial
    · exact List.forall_mem_nil _
    intro advice m2 hadvice hm2
    cases advice with
    | none => exact freed_spec hguarded hmsg hm2 hadded
    | some advice =>
      exact freed_spec hguarded hmsg hm2
        (hadded.addAdvice (hadvice _ (List.mem_singleton.mpr rfl)))

theorem decodeInput_spec (build : Build) (hm : Keeping kept count m) :
    (handles (@Sound numPlayers)).wp (Decoding kept count globals) (decodeInput build msg collected)
      globals m := by
  unfold decodeInput
  split
  · exact ⟨rfl, hm, h⟩
  · apply step_spec hguarded hm
    · trivial
    · exact List.forall_mem_nil _
    intro input m1 hinput hm1
    cases input with
    | none => exact freed_spec hguarded hmsg hm1 h
    | some input =>
      have hadded : ∀ amount contents,
          Apart kept ((collected.addAmount amount).addInput ⟨input, contents⟩) := by
        intro amount contents
        have hamount : Apart kept (collected.addAmount amount) := h
        exact hamount.addInput (hinput _ (List.mem_singleton.mpr rfl))
      exact decodeParty_spec hguarded (hadded _ _) hmsg hm1

theorem decodeDeposit_spec (build : Build) (hm : Keeping kept count m) :
    (handles (@Sound numPlayers)).wp (Decoding kept count globals)
      (decodeDeposit build msg collected) globals m := by
  unfold decodeDeposit
  apply step_spec hguarded hm
  · trivial
  · exact List.forall_mem_nil _
  intro transaction m1 htransaction hm1
  cases transaction with
  | none => exact freed_spec hguarded hmsg hm1 h
  | some transaction =>
    have hadded : Apart kept (collected.addTransaction transaction) :=
      h.addTransaction (htransaction _ (List.mem_singleton.mpr rfl))
    apply step_spec hguarded hm1
    · trivial
    · exact List.forall_mem_nil _
    intro raw m2 hraw hm2
    cases raw with
    | none => exact freed_spec hguarded hmsg hm2 hadded
    | some raw =>
      have hraw : Apart kept ((collected.addTransaction transaction).addRawTransaction
          ⟨raw, DepositAndInput.depositTransaction msg⟩) :=
        hadded.addRawTransaction (hraw _ (List.mem_singleton.mpr rfl))
      exact decodeInput_spec hguarded hraw hmsg build hm2

end Decode

theorem playerAt_spec {α : Type} {post : α → Globals → Memory → Prop} {f : Player → Code α} (i : Nat)
    (hm : Keeping kept count m)
    (hnext : ∀ player, (handles (@Sound numPlayers)).wp post (f player) globals m) :
    (handles (@Sound numPlayers)).wp post (playerAt i >>= f) globals m := by
  unfold playerAt
  rw [bind_assoc]
  apply get_spec
  apply deref_spec hguarded hm
  exact fun player _ => hnext player

include h

/-- By induction on the indices. -/
theorem collectDeposits_spec (build : Build) (hm : Keeping kept count m) (indices : List Nat) :
    (handles (@Sound numPlayers)).wp (Decoding kept count globals)
      (collectDeposits build indices collected) globals m := by
  induction indices generalizing collected m with
  | nil => exact ⟨rfl, hm, h⟩
  | cons i indices ih =>
    unfold collectDeposits
    apply playerAt_spec hguarded i hm
    intro player
    apply step_spec hguarded hm
    · trivial
    · exact List.forall_mem_nil _
    intro msg m1 hmsg hm1
    cases msg with
    | none => exact ⟨rfl, hm1, h⟩
    | some msg =>
      have hmsg : (.heap, msg.address) ∉ kept := hmsg _ (List.mem_singleton.mpr rfl)
      dsimp only
      split
      · exact freed_spec hguarded hmsg hm1 h
      · refine bind_spec (decodeDeposit_spec hguarded h hmsg build hm1) ?_
        rintro ⟨ret, later⟩ m2 hlater hm2
        dsimp only
        split
        · exact ⟨rfl, hm2, hlater⟩
        · exact ih hlater hm2

end Collect

section Evaluate
variable {numPlayers count : Nat} {kept : List Object} {globals : Globals} {m : Memory}
variable (hguarded : Guarded (@Sound numPlayers) kept count globals)

/-- None of the buffers is one of the handles. -/
def Separate (kept : List Object) (outputs : List Buffer) : Prop :=
  ∀ output ∈ outputs, (.heap, output.address) ∉ kept

include hguarded

/-- By induction on the number of outputs. -/
theorem allocateOutputs_spec (hm : Keeping kept count m) (outputs : Nat) :
    (handles (@Sound numPlayers)).wp (Steady kept count globals (Separate kept))
      (allocateOutputs outputs) globals m := by
  induction outputs generalizing m with
  | zero => exact ⟨rfl, hm, List.forall_mem_nil _⟩
  | succ outputs ih =>
    unfold allocateOutputs
    apply step_spec hguarded hm
    · trivial
    · exact List.forall_mem_nil _
    intro address m1 haddress hm1
    cases address with
    | none => exact ⟨rfl, hm1, List.forall_mem_nil _⟩
    | some address =>
      refine bind_spec (ih hm1) ?_
      intro rest m2 hrest hm2
      have hnew : (.heap, address) ∉ kept := haddress _ (List.mem_singleton.mpr rfl)
      exact ⟨rfl, hm2, List.forall_mem_cons.mpr ⟨hnew, hrest⟩⟩

/-- By induction on the buffers. -/
theorem freeAll_spec {buffers : List Buffer} (hseparate : Separate kept buffers)
    (hm : Keeping kept count m) :
    (handles (@Sound numPlayers)).wp (Steady kept count globals fun _ => True) (freeAll buffers)
      globals m := by
  induction buffers generalizing m with
  | nil => exact ⟨rfl, hm, trivial⟩
  | cons buffer rest ih =>
    obtain ⟨hbuffer, hrest⟩ := List.forall_mem_cons.mp hseparate
    unfold freeAll
    apply step_spec hguarded hm
    · trivial
    · exact List.forall_mem_singleton.mpr hbuffer
    exact fun _ m' _ hm' => ih hrest hm'

theorem evaluateFunctionality_spec (hm : Keeping kept count m) (players : Nat)
    (deposits : List Nat) :
    (handles (@Sound numPlayers)).wp
      (Steady kept count globals fun evaluation => Separate kept evaluation.outputs)
      (evaluateFunctionality players deposits) globals m := by
  unfold evaluateFunctionality
  apply step_spec hguarded hm
  · trivial
  · exact List.forall_mem_nil _
  intro random m1 _ hm1
  cases random with
  | none => exact ⟨rfl, hm1, List.forall_mem_nil _⟩
  | some random =>
    dsimp only
    refine bind_spec (allocateOutputs_spec hguarded hm1 players) ?_
    intro outputs m2 houtputs hm2
    split
    · refine bind_spec (freeAll_spec hguarded houtputs hm2) ?_
      exact fun _ m3 _ hm3 => ⟨rfl, hm3, houtputs⟩
    · refine ⟨rfl, hm2, ?_⟩
      intro output houtput
      obtain ⟨i, hi, rfl⟩ := List.mem_mapIdx.mp houtput
      exact houtputs outputs[i] (List.getElem_mem hi)

/-- By induction on the indices. -/
theorem sendClearContract_spec (hm : Keeping kept count m) (sighash txid : Digest)
    (outputs depositTransactions : List Bytes) (indices : List Nat) :
    (handles (@Sound numPlayers)).wp (Steady kept count globals fun _ => True)
      (sendClearContract sighash txid outputs depositTransactions indices) globals m := by
  induction indices generalizing m with
  | nil => exact ⟨rfl, hm, trivial⟩
  | cons i rest ih =>
    unfold sendClearContract
    dsimp only
    apply step_spec hguarded hm
    · trivial
    · exact List.forall_mem_nil _
    intro msg m1 hmsg hm1
    cases msg with
    | none => exact ⟨rfl, hm1, trivial⟩
    | some msg =>
      apply playerAt_spec hguarded i hm1
      intro player
      apply step_spec hguarded hm1
      · trivial
      · exact List.forall_mem_nil _
      intro ret m2 _ hm2
      apply step_spec hguarded hm2
      · trivial
      · exact List.forall_mem_singleton.mpr (hmsg _ (List.mem_singleton.mpr rfl))
      intro _ m3 _ hm3
      split
      · exact ⟨rfl, hm3, trivial⟩
      · exact ih hm3

/-- By induction on the deposits. -/
theorem outputDeposits_spec (hm : Keeping kept count m) (context : Pointer)
    (depositTransactions : List Bytes) :
    (handles (@Sound numPlayers)).wp (Steady kept count globals fun _ => True)
      (outputDeposits context depositTransactions) globals m := by
  induction depositTransactions generalizing m with
  | nil => exact ⟨rfl, hm, trivial⟩
  | cons depositTransaction rest ih =>
    unfold outputDeposits
    apply step_spec hguarded hm
    · trivial
    · exact List.forall_mem_nil _
    intro ret m1 _ hm1
    split
    · exact ⟨rfl, hm1, trivial⟩
    · exact ih hm1

end Evaluate

section Clear
variable {numPlayers count : Nat} {kept : List Object} {globals : Globals} {m : Memory}

def setSettlement (globals : Globals) (unauthorizedSettlement operatorSignature : Option Pointer) :
    Globals :=
  { globals with
    unauthorizedSettlement := unauthorizedSettlement, operatorSignature := operatorSignature }

/-- What the settlement leaves: both handles, or an error. -/
def Cleared (kept : List Object) (count : Nat) (globals : Globals) (ret : Int32) (last : Globals)
    (m : Memory) : Prop :=
  ∃ settlement signature, last = setSettlement globals settlement signature ∧
    if ret = 0 then
      ∃ partialTransaction own, settlement = some partialTransaction ∧ signature = some own ∧
        Keeping ((.signature, own) :: (.partialTransaction, partialTransaction) :: kept) count m
    else Keeping (settlement.toList.map (.partialTransaction, ·) ++ kept) count m

variable (hwallet : walletOf globals ⊆ kept)
include hwallet

theorem cleared_guarded (more : List Object) (hmore : kept ⊆ more)
    (settlement signature : Option Pointer) :
    Guarded (@Sound numPlayers) more count (setSettlement globals settlement signature) := by
  have hheld : walletOf (setSettlement globals settlement signature) ⊆ more :=
    List.Subset.trans hwallet hmore
  apply guarded
  exact hheld

theorem signSettlement_spec {settlement : Pointer} {signature : Option Pointer}
    (hm : Keeping ((.partialTransaction, settlement) :: kept) count m) (advices : List Pointer)
    (sighash : Digest) :
    (handles (@Sound numPlayers)).wp (Cleared kept count globals) (signSettlement advices sighash)
      (setSettlement globals (some settlement) signature) m := by
  have hsub : kept ⊆ (.partialTransaction, settlement) :: kept := List.subset_cons_self _ _
  have hguarded : Guarded (@Sound numPlayers) ((.partialTransaction, settlement) :: kept) count
      (setSettlement globals (some settlement) signature) := cleared_guarded hwallet _ hsub _ _
  unfold signSettlement
  apply get_spec
  apply deref_spec hguarded hm
  intro depositWallet hdeposit
  apply deref_spec hguarded hm
  intro advice hadvice
  have hkey : (.key, depositWallet.key) ∈ kept := by
    apply hwallet
    have hsome : globals.depositWallet = some depositWallet := hdeposit
    simp [walletOf, hsome, walletObjects]
  have hheld : walletOf (setSettlement globals (some settlement) signature) ⊆
      (.partialTransaction, settlement) :: kept := List.Subset.trans hwallet hsub
  apply other_spec hheld hm
  · intro object hobject hkind
    rcases List.mem_pair.mp hobject with rfl | rfl
    · exact List.mem_cons_of_mem _ hkey
    · simp [lasting] at hkind
  · rfl
  · exact List.forall_mem_nil _
  intro own m1 hown hm1
  apply modify_spec
  cases own with
  | none =>
    have hret : (-efault : Int32) ≠ 0 := by decide
    refine ⟨some settlement, none, rfl, ?_⟩
    rw [if_neg hret]
    exact hm1
  | some own => exact ⟨some settlement, some own, rfl, settlement, own, rfl, rfl, hm1⟩

theorem issueSettlement_spec (build : Build) (context : Pointer)
    (collateralTransaction merklePaths : Bytes) (memo : FixedBytes 512) (collected : Collected)
    (evaluation : Evaluation) (hm : Keeping kept count m) :
    (handles (@Sound numPlayers)).wp (Cleared kept count globals)
      (issueSettlement build context collateralTransaction merklePaths memo collected evaluation)
      globals m := by
  unfold issueSettlement
  apply other_spec hwallet hm
  · intro object hobject hkind
    simp only [touched, List.mem_append, List.mem_map] at hobject
    rcases hobject with (⟨_, _, rfl⟩ | ⟨_, _, rfl⟩) | ⟨_, _, rfl⟩
    · simp [lasting] at hkind
    · simp [lasting] at hkind
    · simp [lasting] at hkind
  · rfl
  · exact List.forall_mem_nil _
  intro settlement m1 hsettlement hm1
  apply modify_spec
  have hfailed : ∀ {ret : Int32} {settlement signature : Option Pointer} {m : Memory}, ret ≠ 0 →
      Keeping (settlement.toList.map (.partialTransaction, ·) ++ kept) count m →
      Cleared kept count globals ret (setSettlement globals settlement signature) m := by
    intro ret settlement signature m hret hm
    refine ⟨settlement, signature, rfl, ?_⟩
    rw [if_neg hret]
    exact hm
  cases settlement with
  | none =>
    have hret : (-efault : Int32) ≠ 0 := by decide
    have hnone : Keeping (([] : List Pointer).map (.partialTransaction, ·) ++ kept) count m1 := hm1
    exact hfailed hret hnone
  | some settlement =>
    have hsub : kept ⊆ (.partialTransaction, settlement) :: kept := List.subset_cons_self _ _
    have hguarded : Guarded (@Sound numPlayers) ((.partialTransaction, settlement) :: kept) count
        (setSettlement globals (some settlement) globals.operatorSignature) :=
      cleared_guarded hwallet _ hsub _ _
    change Keeping ((.partialTransaction, settlement) :: kept) count m1 at hm1
    dsimp only
    apply step_spec hguarded hm1
    · exact List.mem_cons_self
    · exact List.forall_mem_nil _
    rintro ⟨sighash, txid⟩ m2 _ hm2
    dsimp only
    refine bind_spec (sendClearContract_spec hguarded hm2 sighash txid _ _ _) ?_
    intro ret m3 _ hm3
    split
    · exact hfailed ‹_› hm3
    · refine bind_spec (outputDeposits_spec hguarded hm3 context _) ?_
      intro ret' m4 _ hm4
      split
      · exact hfailed ‹_› hm4
      · exact signSettlement_spec hwallet hm4 _ sighash

/-- What stands at the label `cleanup`. -/
def Collecting (kept : List Object) (count : Nat) (globals : Globals) (result : Int32 × Collected)
    (last : Globals) (m : Memory) : Prop :=
  Cleared kept count globals result.1 last m ∧ Apart kept result.2

variable (hnone : globals.unauthorizedSettlement = none)
include hnone

omit hwallet in
theorem collecting_failed {ret : Int32} {collected : Collected} (hret : ret ≠ 0)
    (hm : Keeping kept count m) (h : Apart kept collected) :
    Collecting kept count globals (ret, collected) globals m := by
  refine ⟨⟨none, globals.operatorSignature, ?_, ?_⟩, h⟩
  · rw [← hnone]
    rfl
  · rw [if_neg hret]
    exact hm

theorem settle_spec (build : Build) (context : Pointer) (collateralTransaction merklePaths : Bytes)
    (memo : FixedBytes 512) {collected : Collected} (h : Apart kept collected)
    (hm : Keeping kept count m) :
    (handles (@Sound numPlayers)).wp (Collecting kept count globals)
      (settle build context collateralTransaction merklePaths memo collected) globals m := by
  have houtputs : ∀ {outputs : List Buffer}, Separate kept outputs →
      Apart kept { collected with outputs := outputs } := by
    intro outputs hseparate object hobject
    simp only [collectedObjects, List.mem_append] at hobject
    rcases hobject with hold | hnew
    · apply h
      simp only [collectedObjects, List.mem_append]
      tauto
    · obtain ⟨output, houtput, rfl⟩ := List.mem_map.mp hnew
      exact hseparate output houtput
  unfold settle
  refine bind_spec (evaluateFunctionality_spec (guarded hwallet) hm _ _) ?_
  intro evaluation m1 hseparate hm1
  split
  · exact collecting_failed hnone ‹_› hm1 (houtputs hseparate)
  · rw [Contract.wp_bind]
    refine Contract.wp_mono ?_ (issueSettlement_spec hwallet build context collateralTransaction
      merklePaths memo collected evaluation hm1)
    exact fun ret last m2 hcleared => ⟨hcleared, houtputs hseparate⟩

theorem clearContract_spec (build : Build) (context : Pointer)
    (payoutAddress collateralTransaction merklePaths : Bytes) (hm : Keeping kept count m) :
    (handles (@Sound numPlayers)).wp (Collecting kept count globals)
      (clearContract build context payoutAddress collateralTransaction merklePaths) globals m := by
  have hguarded : Guarded (@Sound numPlayers) kept count globals := guarded hwallet
  have hempty : Apart kept {} := List.forall_mem_nil _
  unfold clearContract
  apply step_spec hguarded hm
  · trivial
  · exact List.forall_mem_nil _
  intro memo m1 _ hm1
  apply step_spec hguarded hm1
  · trivial
  · exact List.forall_mem_nil _
  intro address m2 haddress hm2
  cases address with
  | none => exact collecting_failed hnone (by decide) hm2 hempty
  | some address =>
    have haddress : Apart kept (Collected.addPayoutAddress {} address) :=
      hempty.addPayoutAddress (haddress _ (List.mem_singleton.mpr rfl))
    apply get_spec
    apply deref_spec hguarded hm2
    intro depositWallet hdeposit
    have hkey : (.key, depositWallet.key) ∈ kept := by
      apply hwallet
      simp [walletOf, hdeposit, walletObjects]
    apply step_spec hguarded hm2
    · exact hkey
    · exact List.forall_mem_nil _
    intro advice m3 hadvice hm3
    cases advice with
    | none => exact collecting_failed hnone (by decide) hm3 haddress
    | some advice =>
      have hadvice : Apart kept ((Collected.addPayoutAddress {} address).addAdvice advice) :=
        haddress.addAdvice (hadvice _ (List.mem_singleton.mpr rfl))
      apply step_spec hguarded hm3
      · trivial
      · exact List.forall_mem_nil _
      intro transaction m4 htransaction hm4
      cases transaction with
      | none => exact collecting_failed hnone (by decide) hm4 hadvice
      | some transaction =>
        have htransaction : Apart kept (((Collected.addPayoutAddress {} address).addAdvice
            advice).addTransaction transaction) :=
          hadvice.addTransaction (htransaction _ (List.mem_singleton.mpr rfl))
        apply step_spec hguarded hm4
        · exact hkey
        · exact List.forall_mem_nil _
        intro collateral m5 _ hm5
        split
        · exact collecting_failed hnone (by decide) hm5 htransaction
        · refine bind_spec (collectDeposits_spec hguarded ?_ build hm5 _) ?_
          · exact htransaction
          rintro ⟨ret, collected⟩ m6 hcollected hm6
          dsimp only
          split
          · exact collecting_failed hnone ‹_› hm6 hcollected
          · exact settle_spec hwallet hnone build context collateralTransaction merklePaths memo
              hcollected hm6

end Clear

/-- Handles that are no settlement, no signature and no transaction. -/
def Base (kept : List Object) : Prop := ∀ object ∈ kept, object.1 ∈ [Owner.heap, .key, .address]

theorem Base.not_mem {kept : List Object} (h : Base kept) {object : Object}
    (hkind : object.1 ∉ [Owner.heap, .key, .address]) : object ∉ kept :=
  fun hmem => hkind (h object hmem)

section Cleanup
variable {numPlayers count : Nat} {kept : List Object} {globals : Globals} {m : Memory}
variable {collected : Collected}

theorem collected_kinds : ∀ object ∈ collectedObjects collected, object.1 ∉ lasting := by
  intro object hobject
  simp only [collectedObjects, List.mem_append, List.mem_map] at hobject
  rcases hobject with ((((⟨_, _, rfl⟩ | ⟨_, _, rfl⟩) | ⟨_, _, rfl⟩) | ⟨_, _, rfl⟩) | ⟨_, _, rfl⟩) |
    ⟨_, _, rfl⟩
  all_goals simp [lasting]

theorem Apart.extended {more : List Object} (h : Apart kept collected)
    (hmore : ∀ object ∈ more, object.1 ∈ lasting) : Apart (more ++ kept) collected := by
  intro object hobject hmem
  rcases List.mem_append.mp hmem with hnew | hold
  · exact collected_kinds object hobject (hmore object hnew)
  · exact h object hobject hold

/-- The call gives back an object of a kind that no handle is of. -/
structure Releases (release : Pointer → Call Callback Unit) (kind : Owner) : Prop where
  other : kind ∉ lasting
  handed : ∀ pointer, touched (release pointer) = [(kind, pointer)]
  back : ∀ pointer, released (release pointer) = [(kind, pointer)]
  alone : ∀ pointer, combines (release pointer) = none

theorem releases_transaction : Releases .zcashReleaseTransaction .transaction :=
  ⟨by decide, fun _ => rfl, fun _ => rfl, fun _ => rfl⟩

theorem releases_address : Releases .zcashReleaseAddress .address :=
  ⟨by decide, fun _ => rfl, fun _ => rfl, fun _ => rfl⟩

theorem releases_advice : Releases .zcashReleaseAdvice .advice :=
  ⟨by decide, fun _ => rfl, fun _ => rfl, fun _ => rfl⟩

theorem releases_heap : Releases .free .heap :=
  ⟨by decide, fun _ => rfl, fun _ => rfl, fun _ => rfl⟩

section Arrays
variable (hwallet : walletOf globals ⊆ kept)
include hwallet

/-- The release of an element of a local array. -/
theorem releaseAt_spec {release : Pointer → Call Callback Unit} {kind : Owner}
    (hrelease : Releases release kind) {pointers : List Pointer}
    (hpointers : ∀ pointer ∈ pointers, (kind, pointer) ∉ kept) (i : Nat) (hm : Keeping kept count m) :
    (handles (@Sound numPlayers)).wp (Steady kept count globals fun _ => True)
      (releaseAt release pointers i) globals m := by
  unfold releaseAt
  split
  · rename_i pointer hpointer
    have hspares : Spares kept (release pointer) := by
      rw [Spares, hrelease.back]
      exact List.forall_mem_singleton.mpr (hpointers _ (List.mem_of_getElem? hpointer))
    rw [← bind_pure (issue _)]
    apply other_spec hwallet hm
    · intro object hobject hlasting
      rw [hrelease.handed, List.mem_singleton] at hobject
      subst hobject
      exact absurd hlasting hrelease.other
    · exact hrelease.alone pointer
    · exact hspares
    exact fun _ m' _ hm' => ⟨rfl, hm'.mono (List.subset_append_right _ _), trivial⟩
  · exact ⟨rfl, hm, trivial⟩

variable (h : Apart kept collected)
include h

/-- By induction on the indices. -/
theorem releaseObjects_spec (indices : List Nat) (hm : Keeping kept count m) :
    (handles (@Sound numPlayers)).wp (Steady kept count globals fun _ => True)
      (releaseObjects collected indices) globals m := by
  induction indices generalizing m with
  | nil => exact ⟨rfl, hm, trivial⟩
  | cons i rest ih =>
    unfold releaseObjects
    refine bind_spec (releaseAt_spec hwallet releases_transaction ?_ i hm) ?_
    · exact fun pointer hpointer => h _ (by simp [collectedObjects, hpointer])
    intro _ m1 _ hm1
    refine bind_spec (releaseAt_spec hwallet releases_address ?_ i hm1) ?_
    · exact fun pointer hpointer => h _ (by simp [collectedObjects, hpointer])
    intro _ m2 _ hm2
    refine bind_spec (releaseAt_spec hwallet releases_advice ?_ i hm2) ?_
    · exact fun pointer hpointer => h _ (by simp [collectedObjects, hpointer])
    exact fun _ m3 _ hm3 => ih hm3

omit hwallet in
theorem buffer_apart {buffers : List Buffer}
    (hbuffers : ∀ buffer ∈ buffers, (.heap, buffer.address) ∈ collectedObjects collected) :
    ∀ pointer ∈ buffers.map Buffer.address, (.heap, pointer) ∉ kept := by
  intro pointer hpointer
  obtain ⟨buffer, hbuffer, rfl⟩ := List.mem_map.mp hpointer
  exact h _ (hbuffers buffer hbuffer)

/-- By induction on the indices. -/
theorem freeBuffers_spec (indices : List Nat) (hm : Keeping kept count m) :
    (handles (@Sound numPlayers)).wp (Steady kept count globals fun _ => True)
      (freeBuffers collected indices) globals m := by
  have hraw := buffer_apart h fun buffer (hbuffer : buffer ∈ collected.rawDepositTransactions) => by
    simp only [collectedObjects, List.mem_append]
    exact .inl (.inl (.inr (List.mem_map_of_mem hbuffer)))
  have hinput := buffer_apart h fun buffer (hbuffer : buffer ∈ collected.inputs) => by
    simp only [collectedObjects, List.mem_append]
    exact .inl (.inr (List.mem_map_of_mem hbuffer))
  have houtput := buffer_apart h fun buffer (hbuffer : buffer ∈ collected.outputs) => by
    simp only [collectedObjects, List.mem_append]
    exact .inr (List.mem_map_of_mem hbuffer)
  induction indices generalizing m with
  | nil => exact ⟨rfl, hm, trivial⟩
  | cons i rest ih =>
    unfold freeBuffers
    refine bind_spec (releaseAt_spec hwallet releases_heap hraw i hm) ?_
    intro _ m1 _ hm1
    refine bind_spec (releaseAt_spec hwallet releases_heap hinput i hm1) ?_
    intro _ m2 _ hm2
    refine bind_spec (releaseAt_spec hwallet releases_heap houtput i hm2) ?_
    exact fun _ m3 _ hm3 => ih hm3

end Arrays

/-- What the call leaves: both handles, or neither and an error. -/
def Concluded (kept : List Object) (count : Nat) (globals : Globals) (ret : Int32) (last : Globals)
    (m : Memory) : Prop :=
  ∃ settlement signature, last = setSettlement globals settlement signature ∧
    if ret = 0 then
      ∃ partialTransaction own, settlement = some partialTransaction ∧ signature = some own ∧
        Keeping ((.signature, own) :: (.partialTransaction, partialTransaction) :: kept) count m
    else settlement = none ∧ Keeping kept count m

theorem ecallClearContractImpl_spec (hwallet : walletOf globals ⊆ kept)
    (hnone : globals.unauthorizedSettlement = none)
    (hbase : Base kept) (build : Build)
    (context : Pointer) (payoutAddress collateralTransaction merklePaths : Bytes)
    (hm : Keeping kept count m) :
    (handles (@Sound numPlayers)).wp (Concluded kept count globals)
      (ecallClearContractImpl build context payoutAddress collateralTransaction merklePaths)
      globals m := by
  unfold ecallClearContractImpl
  rw [Contract.wp_bind]
  refine Contract.wp_mono ?_ (clearContract_spec hwallet hnone build context payoutAddress
    collateralTransaction merklePaths hm)
  rintro ⟨ret, collected⟩ last m1 ⟨⟨settlement, signature, rfl, hcleared⟩, hapart⟩
  have hheld : ∀ more : List Object, walletOf (setSettlement globals settlement signature) ⊆
      more ++ kept :=
    fun more => List.Subset.trans hwallet (List.subset_append_right _ _)
  dsimp only at hcleared ⊢
  by_cases hret : ret = 0
  · rw [if_pos hret] at hcleared
    obtain ⟨partialTransaction, own, rfl, rfl, hkeeping⟩ := hcleared
    let more : List Object := [(.signature, own), (.partialTransaction, partialTransaction)]
    have hapart : Apart (more ++ kept) collected := hapart.extended (by simp [more, lasting])
    refine bind_spec (releaseObjects_spec (hheld more) hapart _ hkeeping) ?_
    intro _ m2 _ hm2
    refine bind_spec (freeBuffers_spec (hheld more) hapart _ hm2) ?_
    intro _ m3 _ hm3
    rw [if_neg (not_not.mpr hret)]
    refine ⟨some partialTransaction, some own, rfl, ?_⟩
    rw [if_pos hret]
    exact ⟨partialTransaction, own, rfl, rfl, hm3⟩
  · rw [if_neg hret] at hcleared
    let more : List Object := settlement.toList.map (.partialTransaction, ·)
    have hapart : Apart (more ++ kept) collected := by
      apply hapart.extended
      simp [more, lasting]
    refine bind_spec (releaseObjects_spec (hheld more) hapart _ hcleared) ?_
    intro _ m2 _ hm2
    refine bind_spec (freeBuffers_spec (hheld more) hapart _ hm2) ?_
    intro _ m3 _ hm3
    have hconcluded : ∀ {signature : Option Pointer} {m : Memory}, Keeping kept count m →
        Concluded kept count globals ret (setSettlement globals none signature) m := by
      intro signature m hm
      refine ⟨none, signature, rfl, ?_⟩
      rw [if_neg hret]
      exact ⟨rfl, hm⟩
    rw [if_pos hret]
    apply get_spec
    cases settlement with
    | none => exact hconcluded hm3
    | some settlement =>
      apply call_spec (hm3.mono (List.subset_append_right _ _))
      · apply guarded (hheld more)
        · exact hm3
        · exact List.mem_cons_self
      · exact List.forall_mem_singleton.mpr (hbase.not_mem (by simp))
      · rfl
      intro _ m4 _ hm4
      exact hconcluded hm4

end Cleanup

section Finalize
variable {numPlayers count : Nat} {kept : List Object} {globals : Globals} {m : Memory}

def signatureObjects (signatures : List Pointer) : List Object := signatures.map (.signature, ·)

/-- The signatures that have been imported are live, and all of them different. -/
structure Imported (kept : List Object) (count players : Nat) (result : Int32 × List Pointer)
    (m : Memory) : Prop where
  keeping : Keeping (signatureObjects result.2 ++ kept) count m
  nodup : result.2.Nodup
  apart : ∀ object ∈ signatureObjects result.2, object ∉ kept
  complete : result.1 = 0 → result.2.length = players

/-- By induction on the indices; the signature at hand stands among the handles of the rest. -/
theorem collectSignatures_spec (hwallet : walletOf globals ⊆ kept) (hm : Keeping kept count m)
    (indices : List Nat) :
    (handles (@Sound numPlayers)).wp
      (fun result last m' => last = globals ∧ Imported kept count indices.length result m')
      (collectSignatures indices) globals m := by
  have hfailed : ∀ {ret : Int32} {players : Nat} {kept : List Object} {m : Memory}, ret ≠ 0 →
      Keeping kept count m → Imported kept count players (ret, []) m :=
    fun hret hm => ⟨hm, List.nodup_nil, List.forall_mem_nil _, fun hzero => absurd hzero hret⟩
  induction indices generalizing kept m with
  | nil => exact ⟨rfl, hm, List.nodup_nil, List.forall_mem_nil _, fun _ => rfl⟩
  | cons i rest ih =>
    have hguarded : Guarded (@Sound numPlayers) kept count globals := guarded hwallet
    unfold collectSignatures
    apply playerAt_spec hguarded i hm
    intro player
    apply step_spec hguarded hm
    · trivial
    · exact List.forall_mem_nil _
    intro msg m1 hmsg hm1
    cases msg with
    | none => exact ⟨rfl, hfailed (by decide) hm1⟩
    | some msg =>
      have hmsg : (.heap, msg.address) ∉ kept := hmsg _ (List.mem_singleton.mpr rfl)
      dsimp only
      split
      · apply step_spec hguarded hm1
        · trivial
        · exact List.forall_mem_singleton.mpr hmsg
        exact fun _ m2 _ hm2 => ⟨rfl, hfailed (by decide) hm2⟩
      · apply acquire_spec hguarded hm1
        · trivial
        · exact List.forall_mem_nil _
        intro signature m2 hsignature hm2
        cases signature with
        | none =>
          apply step_spec hguarded hm2
          · trivial
          · exact List.forall_mem_singleton.mpr hmsg
          exact fun _ m3 _ hm3 => ⟨rfl, hfailed (by decide) hm3⟩
        | some signature =>
          have hnew : (.signature, signature) ∉ kept := hsignature _ (List.mem_singleton.mpr rfl)
          have hheld : walletOf globals ⊆ (.signature, signature) :: kept :=
            List.subset_cons_of_subset _ hwallet
          apply step_spec (guarded hheld) hm2
          · trivial
          · exact List.forall_mem_singleton.mpr (List.not_mem_cons_of_ne_of_not_mem (by simp) hmsg)
          intro _ m3 _ hm3
          dsimp only
          rw [Contract.wp_bind]
          refine Contract.wp_mono ?_ (ih hheld hm3)
          rintro ⟨ret, signatures⟩ last m4 ⟨rfl, himported⟩
          refine ⟨rfl, himported.keeping.mono ?_, ?_, ?_, ?_⟩
          · intro object hobject
            simp only [signatureObjects, List.map_cons, List.mem_append, List.mem_cons] at hobject ⊢
            tauto
          · refine List.nodup_cons.mpr ⟨fun hsame => ?_, himported.nodup⟩
            exact himported.apart _ (List.mem_map_of_mem hsame) List.mem_cons_self
          · refine List.forall_mem_cons.mpr ⟨hnew, fun object hobject hkept => ?_⟩
            exact himported.apart object hobject (List.mem_cons_of_mem _ hkept)
          · exact fun hzero => congrArg (· + 1) (himported.complete hzero)

/-- By induction on the signatures. -/
theorem releaseSignatures_spec {signatures : List Pointer} (hwallet : walletOf globals ⊆ kept)
    (hnodup : signatures.Nodup) (hapart : ∀ object ∈ signatureObjects signatures, object ∉ kept)
    (hm : Keeping (signatureObjects signatures ++ kept) count m) :
    (handles (@Sound numPlayers)).wp (Steady kept count globals fun _ => True)
      (releaseSignatures signatures) globals m := by
  induction signatures generalizing m with
  | nil => exact ⟨rfl, hm, trivial⟩
  | cons signature rest ih =>
    obtain ⟨hother, hrest⟩ := List.nodup_cons.mp hnodup
    obtain ⟨hnew, hapart⟩ := List.forall_mem_cons.mp hapart
    have hheld : walletOf globals ⊆ signatureObjects (signature :: rest) ++ kept :=
      List.subset_append_of_subset_right _ hwallet
    unfold releaseSignatures
    apply call_spec (hm.mono (List.subset_cons_self _ _))
    · apply guarded hheld
      · exact hm
      · exact List.mem_cons_self
    · refine List.forall_mem_singleton.mpr fun hmem => ?_
      rcases List.mem_append.mp hmem with hsame | hkept
      · obtain ⟨other, hmem, hsame⟩ := List.mem_map.mp hsame
        cases hsame
        exact hother hmem
      · exact hnew hkept
    · rfl
    exact fun _ m' _ hm' => ih hrest hapart hm'

section Authorize
variable {settlement : Pointer} {signatures : List Pointer} (hwallet : walletOf globals ⊆ kept)
variable (hkept : (.partialTransaction, settlement) ∉ kept) (hnodup : signatures.Nodup)
variable (hlength : signatures.length = numPlayers + 1) (hsub : signatureObjects signatures ⊆ kept)
variable (hm : Keeping ((.partialTransaction, settlement) :: kept) 0 m)
include hwallet hkept hnodup hlength hsub hm

/-- The settlement is consumed, and one has been authorized. -/
theorem authorize_spec {α : Type} {post : α → Globals → Memory → Prop}
    {f : Option Pointer → Code α}
    (hnext : ∀ authorized m', Keeping kept 1 m' →
      (handles (@Sound numPlayers)).wp post (f authorized) globals m') :
    (handles (@Sound numPlayers)).wp post
      (issue (.zcashAuthorizeTransaction settlement signatures) >>= f) globals m := by
  rw [Contract.wp_bind]
  refine ⟨⟨⟨?_, ?_⟩, ?_⟩, fun authorized _ => hnext authorized _ ⟨?_, ?_⟩⟩
  · intro object hobject _
    rcases List.mem_cons.mp hobject with rfl | hsignature
    · exact hm.live _ List.mem_cons_self
    · exact hm.live _ (List.mem_cons_of_mem _ (hsub hsignature))
  · intro wallet hsome _ _ _
    apply hm.live _ (List.mem_cons_of_mem _ (hwallet _))
    rw [walletOf, Option.mem_toList.mp hsome]
    exact List.mem_cons_self
  · rintro _ _ ⟨⟩
    refine ⟨hm.live _ List.mem_cons_self, fun signature hsignature => ?_, hlength, hnodup,
      hm.authorized⟩
    exact hm.live _ (List.mem_cons_of_mem _ (hsub (List.mem_map_of_mem hsignature)))
  · intro object hobject
    refine List.mem_append_right _ (List.mem_filter.mpr ⟨?_, decide_eq_true fun hsame => ?_⟩)
    · exact hm.live object (List.mem_cons_of_mem _ hobject)
    · exact hkept (List.mem_singleton.mp hsame ▸ hobject)
  · exact congrArg (· + 1) hm.authorized

theorem authorizeSettlement_spec (hsettlement : globals.unauthorizedSettlement = some settlement)
    (context : Pointer) :
    (handles (@Sound numPlayers)).wp
      (Steady kept 1 (setSettlement globals none globals.operatorSignature) fun _ => True)
      (authorizeSettlement context signatures) globals m := by
  have hheld : walletOf globals ⊆ (.partialTransaction, settlement) :: kept :=
    List.subset_cons_of_subset _ hwallet
  unfold authorizeSettlement
  apply get_spec
  apply deref_spec (guarded hheld) hm
  intro other hother
  obtain rfl : settlement = other := Option.some.inj (hsettlement.symm.trans hother)
  apply authorize_spec hwallet hkept hnodup hlength hsub hm
  intro authorized m1 hm1
  have hheld' : walletOf (setSettlement globals none globals.operatorSignature) ⊆ kept := hwallet
  have hguarded : Guarded (@Sound numPlayers) kept 1
      (setSettlement globals none globals.operatorSignature) := guarded hheld'
  apply modify_spec
  cases authorized with
  | none => exact ⟨rfl, hm1, trivial⟩
  | some authorized =>
    dsimp only
    unfold zcashExportTransaction
    rw [bind_assoc]
    apply step_spec hguarded hm1
    · trivial
    · exact List.forall_mem_nil _
    intro length m2 _ hm2
    refine bind_spec (zcashExport_spec hguarded hm2 trivial (List.forall_mem_nil _)) ?_
    intro exported m3 _ hm3
    cases exported with
    | error ret => exact ⟨rfl, hm3, trivial⟩
    | ok raw =>
      apply step_spec hguarded hm3
      · trivial
      · exact List.forall_mem_nil _
      exact fun _ m4 _ hm4 => ⟨rfl, hm4, trivial⟩

end Authorize

/-- What the call leaves: an error with the handles as they were, or the settlement consumed and the
signature released. -/
def Finalized (kept : List Object) (settlement own : Pointer) (globals last : Globals) (m : Memory) :
    Prop :=
  last = globals ∧
      Keeping ((.signature, own) :: (.partialTransaction, settlement) :: kept) 0 m ∨
    last = setSettlement globals none (some own) ∧ Keeping kept 1 m

theorem ecallFinalizeImpl_spec {build : Build} {settlement own : Pointer}
    (hwallet : walletOf globals ⊆ kept) (hbase : Base kept)
    (hsettlement : globals.unauthorizedSettlement = some settlement)
    (hown : globals.operatorSignature = some own) (context : Pointer)
    (hm : Keeping ((.signature, own) :: (.partialTransaction, settlement) :: kept) 0 m) :
    (handles (@Sound build.numPlayers)).wp
      (fun _ last m' => Finalized kept settlement own globals last m')
      (ecallFinalizeImpl build context) globals m := by
  have hheld : ∀ more : List Object, walletOf globals ⊆ more ++ kept :=
    fun more => List.subset_append_of_subset_right _ hwallet
  have hheld' : walletOf globals ⊆ (.signature, own) :: (.partialTransaction, settlement) :: kept :=
    hheld [(.signature, own), (.partialTransaction, settlement)]
  unfold ecallFinalizeImpl
  rw [Contract.wp_bind]
  refine Contract.wp_mono ?_ (collectSignatures_spec hheld' hm (List.range build.numPlayers))
  rintro ⟨ret, signatures⟩ last m1 ⟨rfl, himported⟩
  dsimp only
  split
  · refine bind_spec (releaseSignatures_spec hheld' himported.nodup himported.apart
      himported.keeping) ?_
    exact fun _ m2 _ hm2 => .inl ⟨rfl, hm2⟩
  · have hlength : (own :: signatures).length = build.numPlayers + 1 := by
      have hall := himported.complete (not_not.mp ‹_›)
      rw [List.length_range] at hall
      exact congrArg (· + 1) hall
    have hnodup : (own :: signatures).Nodup := by
      refine List.nodup_cons.mpr ⟨fun hsame => ?_, himported.nodup⟩
      exact himported.apart _ (List.mem_map_of_mem hsame) List.mem_cons_self
    have hapart : ∀ object ∈ signatureObjects (own :: signatures), object ∉ kept := by
      intro object hobject
      obtain ⟨_, _, rfl⟩ := List.mem_map.mp hobject
      exact hbase.not_mem (by simp)
    have hother : (.partialTransaction, settlement) ∉
        signatureObjects (own :: signatures) ++ kept := by
      intro hmem
      rcases List.mem_append.mp hmem with hsignature | hkept
      · obtain ⟨_, _, hsame⟩ := List.mem_map.mp hsignature
        cases hsame
      · exact hbase.not_mem (by simp) hkept
    have hm1 : Keeping ((.partialTransaction, settlement) ::
        (signatureObjects (own :: signatures) ++ kept)) 0 m1 := by
      refine himported.keeping.mono fun object hobject => ?_
      simp only [signatureObjects, List.map_cons, List.mem_append, List.mem_cons] at hobject ⊢
      tauto
    apply get_spec
    apply deref_spec (guarded hheld') (himported.keeping.mono (List.subset_append_right _ _))
    intro other hsome
    obtain rfl : own = other := Option.some.inj (hown.symm.trans hsome)
    rw [Contract.wp_bind]
    refine Contract.wp_mono ?_ (authorizeSettlement_spec (hheld _) hother hnodup hlength
      (List.subset_append_left _ _) hm1 hsettlement context)
    rintro ⟨ret', authorized⟩ last' m2 ⟨rfl, hm2, _⟩
    rw [hown]
    have hfinal : walletOf (setSettlement last none (some own)) ⊆ kept := hwallet
    refine bind_spec (releaseSignatures_spec hfinal hnodup hapart hm2) ?_
    intro _ m3 _ hm3
    cases authorized with
    | none => exact .inr ⟨rfl, hm3⟩
    | some authorized =>
      apply step_spec (guarded hfinal) hm3
      · trivial
      · exact List.forall_mem_singleton.mpr (hbase.not_mem (by simp))
      exact fun _ m4 _ hm4 => .inr ⟨rfl, hm4⟩

end Finalize

section Refund
variable {count : Nat} {kept : List Object} {globals : Globals} {m : Memory} {dep : Deployment}

/-- Nothing is given back but the copy of the key. -/
theorem ecallRefundImpl_spec {numPlayers : Nat} (hwallet : walletOf globals ⊆ kept)
    (hm : Keeping kept count m) (context : Pointer) (blocks : Bytes) :
    (handles (@Sound numPlayers)).wp (Steady kept count globals fun _ => True)
      (ecallRefundImpl dep context blocks) globals m := by
  have hguarded : Guarded (@Sound numPlayers) kept count globals := guarded hwallet
  unfold ecallRefundImpl
  split
  · exact ⟨rfl, hm, trivial⟩
  · apply get_spec
    apply deref_spec hguarded hm
    intro depositWallet hdeposit
    have hkey : (.key, depositWallet.key) ∈ kept := by
      apply hwallet
      simp [walletOf, hdeposit, walletObjects]
    refine bind_spec (zcashExport_spec hguarded hm hkey (List.forall_mem_nil _)) ?_
    intro exported m1 hexported hm1
    cases exported with
    | error ret => exact ⟨rfl, hm1, trivial⟩
    | ok depositKey =>
      apply step_spec hguarded hm1
      · trivial
      · exact List.forall_mem_nil _
      intro _ m2 _ hm2
      apply step_spec hguarded hm2
      · trivial
      · exact List.forall_mem_singleton.mpr hexported
      exact fun _ m3 _ hm3 => ⟨rfl, hm3, trivial⟩

end Refund

section Connect
variable {numPlayers count : Nat} {base : List Object} {before globals : Globals} {stash : Stash}
  {channel : Option Pointer}

theorem guarded_of (hbase : walletOf globals ⊆ base) :
    ∀ kept, base ⊆ kept → Guarded (@Sound numPlayers) kept count globals :=
  fun _ hkept => guarded (List.Subset.trans hbase hkept)

theorem dropStashedQuote_step {α : Type} {post : α → Globals → Memory → Prop} {f : PUnit → Code α}
    (hbase : walletOf globals ⊆ base) (hstash : globals.stash = stash)
    (h : Connects (@Sound numPlayers) count base post (f ()) { globals with stash := {} } {} channel) :
    Connects (@Sound numPlayers) count base post (dropStashedQuote >>= f) globals stash channel := by
  subst hstash
  have hheld : walletOf { globals with stash := {} } ⊆ base := hbase
  have hguarded : ∀ kept, base ⊆ kept →
      Guarded (@Sound numPlayers) kept count { globals with stash := {} } := guarded_of hheld
  unfold dropStashedQuote
  rw [bind_assoc]
  apply get_step
  cases hquote : globals.stash.quote with
  | none =>
    apply forget_step hquote
    exact modify_step hguarded h
  | some quote =>
    dsimp only
    rw [bind_assoc]
    apply drop_step hquote
    exact modify_step hguarded h

/-- A handshake changes the stash. -/
def Attested (before : Globals) (_ : Option Player) (last : Globals) (stash : Stash)
    (_ : Option Pointer) : Prop :=
  last = { before with stash := stash }

theorem receiveAck_attested (ref : ChannelRef) (playerReportData : ReportData)
    (hlast : globals = { before with stash := stash }) :
    Connects (@Sound numPlayers) count base
      (Ends (@Sound numPlayers) count base (Attested before)) (receiveAck ref playerReportData)
      globals stash (some ref.address) := by
  unfold receiveAck
  repeat' with_reducible first
    | apply receive_step
    | apply malloc_step
    | apply teardown_step
    | apply free_step
    | apply end_step
    | intro _
    | dsimp only
    | split
  all_goals first
    | rfl
    | assumption
    | exact Clear.dropped ‹_›

variable (hbase : walletOf globals ⊆ base)
include hbase

theorem answerSyn_attested (ref : ChannelRef) (msg1 : Pointer) (nonce : Digest) (gb : PublicKey)
    (sessionKey : SessionKey) (operatorReportData playerReportData : ReportData)
    (hmsg : Clear base globals.stash (some ref.address) msg1) :
    Connects (@Sound numPlayers) count base
      (Ends (@Sound numPlayers) count base (Attested globals))
      (answerSyn ref msg1 nonce gb sessionKey operatorReportData playerReportData) globals
      globals.stash (some ref.address) := by
  unfold answerSyn stashQuotes
  repeat' with_reducible first
    | apply malloc_step
    | apply quote_step
    | apply teardown_step
    | apply dropStashedQuote_step
    | apply free_step
    | apply modify_step
    | apply get_step
    | apply end_step
    | apply call_step
    | intro _
    | dsimp only
    | split
  all_goals first
    | rfl
    | assumption
    | exact True.intro
    | exact Clear.dropped ‹_›
    | exact Clear.unstashed ‹_›
    | exact guarded_of (by exact hbase) _ ‹_›
    | exact receiveAck_attested (ref.encrypt sessionKey) _ rfl

theorem mutualAttestation_attested (tcrypto : Tcrypto) (players : Nat) (context : Pointer) :
    Connects (@Sound numPlayers) count base
      (Ends (@Sound numPlayers) count base (Attested globals))
      (mutualAttestation tcrypto players context) globals globals.stash none := by
  have hanswer : ∀ (ref : ChannelRef) (msg1 : Pointer) (nonce : Digest) (gb : PublicKey)
      (sessionKey : SessionKey) (operatorReportData playerReportData : ReportData),
      Clear base globals.stash (some ref.address) msg1 →
      Connects (@Sound numPlayers) count base
        (Ends (@Sound numPlayers) count base (Attested globals))
        (answerSyn ref msg1 nonce gb sessionKey operatorReportData playerReportData) globals
        globals.stash (some ref.address) := answerSyn_attested hbase
  unfold mutualAttestation deriveSecrets
  repeat' with_reducible first
    | apply digests_step (getSessionKey_within _ _ _)
    | apply digests_step (getReportData_within _ _ _)
    | apply create_step
    | apply receive_step
    | apply teardown_step
    | apply free_step
    | apply get_step
    | apply end_step
    | apply call_step
    | intro _
    | dsimp only
    | split
  all_goals first
    | rfl
    | assumption
    | exact True.intro
    | exact Clear.dropped ‹_›
    | exact hanswer _ _ _ _ _ _ _ ‹_›

omit hbase in
theorem playerAt_step {α : Type} {post : α → Globals → Memory → Prop} {f : Player → Code α} {i : Nat}
    (h : ∀ player, Connects (@Sound numPlayers) count base post (f player) globals stash channel) :
    Connects (@Sound numPlayers) count base post (playerAt i >>= f) globals stash channel := by
  unfold playerAt
  rw [bind_assoc]
  apply get_step
  exact deref_step h

/-- Nothing but messages is exchanged. -/
def Unmoved {α : Type} (globals : Globals) (stash : Stash) (channel : Option Pointer) (_ : α)
    (last : Globals) (stash' : Stash) (channel' : Option Pointer) : Prop :=
  last = globals ∧ stash' = stash ∧ channel' = channel

section Present
omit hbase

theorem playerAt_passive (i : Nat) :
    (playerAt i).Within (fun c => Passive c) (globals = ·) :=
  playerAt_within ⟨fun _ => trivial, rfl⟩ i

theorem printQuotes_unmoved (indices : List Nat) :
    Connects (@Sound numPlayers) count base
      (Ends (@Sound numPlayers) count base (Unmoved globals stash channel)) (printQuotes indices)
      globals stash channel :=
  passive_end (printQuotes_within (fun i _ => playerAt_passive i)
    fun _ _ => ⟨fun _ => trivial, rfl⟩) fun _ => ⟨rfl, rfl, rfl⟩

theorem collectQuotes_unmoved (indices : List Nat) :
    Connects (@Sound numPlayers) count base
      (Ends (@Sound numPlayers) count base (Unmoved globals stash channel)) (collectQuotes indices)
      globals stash channel :=
  passive_end (collectQuotes_within fun i _ => playerAt_passive i) fun _ => ⟨rfl, rfl, rfl⟩

theorem broadcast_unmoved (msg : Message) (indices : List Nat) :
    Connects (@Sound numPlayers) count base
      (Ends (@Sound numPlayers) count base (Unmoved globals stash channel)) (broadcast msg indices)
      globals stash channel :=
  passive_end (broadcast_within msg fun i _ => Program.Within.bind (playerAt_passive i) fun _ =>
    Program.Within.issue ⟨fun _ => trivial, rfl⟩) fun _ => ⟨rfl, rfl, rfl⟩

/-- By induction on the indices. -/
theorem receiveAcknowledgements_unmoved (indices : List Nat) :
    Connects (@Sound numPlayers) count base
      (Ends (@Sound numPlayers) count base (Unmoved globals stash channel))
      (receiveAcknowledgements indices) globals stash channel := by
  induction indices with
  | nil => exact end_step ⟨rfl, rfl, rfl⟩
  | cons i rest ih =>
    unfold receiveAcknowledgements
    apply playerAt_step
    intro player
    apply receive_step
    · exact end_step ⟨rfl, rfl, rfl⟩
    intro msg hmsg
    dsimp only
    split
    · apply free_step hmsg
      exact end_step ⟨rfl, rfl, rfl⟩
    · apply free_step hmsg
      exact ih

theorem presentQuotes_unmoved (players : Nat) :
    Connects (@Sound numPlayers) count base
      (Ends (@Sound numPlayers) count base (Unmoved globals stash channel)) (presentQuotes players)
      globals stash channel := by
  unfold presentQuotes
  apply bind_step (printQuotes_unmoved _)
  rintro error _ _ _ ⟨rfl, rfl, rfl⟩
  split
  · exact end_step ⟨rfl, rfl, rfl⟩
  apply bind_step (collectQuotes_unmoved _)
  rintro quotes _ _ _ ⟨rfl, rfl, rfl⟩
  dsimp only
  apply malloc_step
  · exact end_step ⟨rfl, rfl, rfl⟩
  intro msg1 hmsg1
  apply bind_step (broadcast_unmoved _ _)
  rintro error _ _ _ ⟨rfl, rfl, rfl⟩
  apply free_step hmsg1
  split
  · exact end_step ⟨rfl, rfl, rfl⟩
  apply bind_step (receiveAcknowledgements_unmoved _)
  rintro error _ _ _ ⟨rfl, rfl, rfl⟩
  split
  · exact end_step ⟨rfl, rfl, rfl⟩
  apply malloc_step
  · exact end_step ⟨rfl, rfl, rfl⟩
  intro msg2 hmsg2
  apply bind_step (broadcast_unmoved _ _)
  rintro error _ _ _ ⟨rfl, rfl, rfl⟩
  apply free_step hmsg2
  split
  · exact end_step ⟨rfl, rfl, rfl⟩
  · exact end_step ⟨rfl, rfl, rfl⟩

end Present

/-- What a connection changes. -/
def Connected {α : Type} (before : Globals) (_ : α) (last : Globals) (stash : Stash)
    (_ : Option Pointer) : Prop :=
  SetupOnly before last ∧ last.stash = stash

theorem learnQuotingEnclave_connected :
    Connects (@Sound numPlayers) count base
      (Ends (@Sound numPlayers) count base fun error last stash channel' =>
        Connected globals error last stash channel' ∧ channel' = channel) learnQuotingEnclave globals
      globals.stash channel := by
  unfold learnQuotingEnclave
  apply get_step
  split
  · exact end_step ⟨⟨⟨_, _, _, _, _, rfl⟩, rfl⟩, rfl⟩
  apply call_step
  · exact fun _ => True.intro
  · rfl
  rintro ⟨ret, quotingEnclave⟩
  apply modify_step
  · exact guarded_of (by exact hbase)
  split
  · exact end_step ⟨⟨⟨_, _, _, _, _, rfl⟩, rfl⟩, rfl⟩
  · apply modify_step
    · exact guarded_of (by exact hbase)
    exact end_step ⟨⟨⟨_, _, _, _, _, rfl⟩, rfl⟩, rfl⟩

theorem addPlayer_connected (players : Nat) (player : Player) :
    Connects (@Sound numPlayers) count base
      (Ends (@Sound numPlayers) count base (Connected globals)) (addPlayer players player) globals
      globals.stash channel := by
  unfold addPlayer
  apply get_step
  split
  · intro hguarded m hm
    rw [Contract.wp_bind]
    exact fault_spec (hguarded _ base_subset) hm.keeping
  · exact fun _ m hm => ⟨guarded_of (by exact hbase), globals.stash, channel, hm,
      ⟨_, _, _, _, _, rfl⟩, rfl⟩

theorem ecallConnectToPlayer_connected (dep : Deployment) (context : Pointer) :
    Connects (@Sound numPlayers) count base
      (Ends (@Sound numPlayers) count base (Connected globals)) (ecallConnectToPlayer dep context)
      globals globals.stash none := by
  unfold ecallConnectToPlayer
  apply get_step
  split
  · exact end_step ⟨⟨_, _, _, _, _, rfl⟩, rfl⟩
  apply bind_step (learnQuotingEnclave_connected hbase)
  rintro error _ _ _ ⟨⟨⟨quotingEnclave, known, players, connected, stash, rfl⟩, rfl⟩, rfl⟩
  split
  · exact end_step ⟨⟨_, _, _, _, _, rfl⟩, rfl⟩
  apply bind_step (mutualAttestation_attested (by exact hbase) dep.tcrypto dep.build.numPlayers context)
  rintro player _ stash' channel rfl
  cases player with
  | none => exact end_step ⟨⟨_, _, _, _, _, rfl⟩, rfl⟩
  | some player =>
    apply bind_step (addPlayer_connected (by exact hbase) dep.build.numPlayers player)
    rintro _ _ _ channel' ⟨⟨_, _, players', connected', stash'', rfl⟩, rfl⟩
    apply get_step
    split
    · intro hguarded m hm
      refine Contract.wp_mono ?_ (presentQuotes_unmoved dep.build.numPlayers hguarded m hm)
      rintro ret _ m' ⟨hguarded', _, _, hm', rfl, rfl, rfl⟩
      exact ⟨hguarded', _, _, hm', ⟨_, _, _, _, _, rfl⟩, rfl⟩
    · exact end_step ⟨⟨_, _, _, _, _, rfl⟩, rfl⟩

end Connect

section Runs
variable {dep : Deployment} {count : Nat} {globals : Globals} {m : Memory}

/-- The settlement in the static variable, and the signature until it is released. -/
def settled (globals : Globals) : List Object :=
  globals.unauthorizedSettlement.toList.map (.partialTransaction, ·) ++
    if globals.state = .clearedContract then globals.operatorSignature.toList.map (.signature, ·)
    else []

/-- The handles that can be used. -/
def held (globals : Globals) : List Object := walletOf globals ++ settled globals

/-- Between two ECALLs every handle that can be used is live, the stashed quote besides. -/
structure Inv (count : Nat) (globals : Globals) (m : Memory) : Prop where
  keeping : Keeping (stashed globals.stash ++ held globals) count m
  apart : ∀ object ∈ stashed globals.stash, object ∉ held globals
  early : globals.state = .uninitialized ∨ globals.state = .initialized →
    globals.unauthorizedSettlement = none
  fresh : globals.state = .uninitialized ∨ globals.state = .initialized ∨
    globals.state = .clearedContract → count = 0
  cleared : globals.state = .clearedContract →
    globals.unauthorizedSettlement.isSome ∧ globals.operatorSignature.isSome

/-- What the contract works beside: the wallet and the stash. -/
def baseOf (globals : Globals) : List Object := stashed globals.stash ++ walletOf globals

theorem base_baseOf : Base (baseOf globals) := by
  intro object hobject
  rcases List.mem_append.mp hobject with hstash | hwallet
  · obtain ⟨_, _, rfl⟩ := List.mem_map.mp hstash
    simp
  · cases hdeposit : globals.depositWallet with
    | none => simp [walletOf, hdeposit] at hwallet
    | some wallet =>
      simp only [walletOf, hdeposit, Option.elim, walletObjects, List.mem_cons,
        List.not_mem_nil] at hwallet
      rcases hwallet with rfl | rfl | rfl | hnone
      · simp
      · simp
      · simp
      · exact absurd hnone id

theorem wallet_baseOf : walletOf globals ⊆ baseOf globals := List.subset_append_right _ _

theorem Inv.base (h : Inv count globals m) : Keeping (baseOf globals) count m := by
  refine h.keeping.mono (List.append_subset.mpr ⟨List.subset_append_left _ _, ?_⟩)
  exact List.subset_append_of_subset_right _ (List.subset_append_left _ _)

theorem Inv.of_parts (hbase : Keeping (baseOf globals) count m)
    (hsettled : ∀ object ∈ settled globals, object ∈ m.live)
    (hapart : ∀ object ∈ stashed globals.stash, object ∉ walletOf globals)
    (hearly : globals.state = .uninitialized ∨ globals.state = .initialized →
      globals.unauthorizedSettlement = none)
    (hfresh : globals.state = .uninitialized ∨ globals.state = .initialized ∨
      globals.state = .clearedContract → count = 0)
    (hcleared : globals.state = .clearedContract →
      globals.unauthorizedSettlement.isSome ∧ globals.operatorSignature.isSome) :
    Inv count globals m := by
  refine ⟨⟨?_, hbase.authorized⟩, ?_, hearly, hfresh, hcleared⟩
  · intro object hobject
    simp only [held, List.mem_append] at hobject
    rcases hobject with hstash | hwallet | hown
    · exact hbase.live object (List.mem_append_left _ hstash)
    · exact hbase.live object (List.mem_append_right _ hwallet)
    · exact hsettled object hown
  · intro object hobject hheld
    rcases List.mem_append.mp hheld with hwallet | hown
    · exact hapart object hobject hwallet
    · obtain ⟨quote, _, rfl⟩ := List.mem_map.mp hobject
      simp [settled] at hown

theorem Inv.wallet_apart (h : Inv count globals m) :
    ∀ object ∈ stashed globals.stash, object ∉ walletOf globals :=
  fun object hobject hwallet => h.apart object hobject (List.mem_append_left _ hwallet)

theorem Inv.settled_live (h : Inv count globals m) : ∀ object ∈ settled globals, object ∈ m.live :=
  fun object hobject => h.keeping.live object
    (List.mem_append_right _ (List.mem_append_right _ hobject))

/-- What every ECALL preserves. -/
def Rests (globals : Globals) (m : Memory) : Prop := ∃ count, Inv count globals m

theorem connect_rests (context : Pointer) (h : Inv count globals m) :
    (handles (@Sound dep.build.numPlayers)).wp (fun _ last m' => Rests last m')
      (ecallConnectToPlayer dep context) globals m := by
  have hwallet : walletOf globals ⊆ held globals := List.subset_append_left _ _
  have hattempt : Attempt (held globals) count globals.stash none m :=
    ⟨h.keeping, h.apart, List.forall_mem_nil _⟩
  refine Contract.wp_mono ?_ (ecallConnectToPlayer_connected hwallet dep context
    (guarded_of hwallet) m hattempt)
  rintro ret last m' ⟨_, stash, channel, hm', ⟨_, _, _, _, _, rfl⟩, rfl⟩
  refine ⟨count, hm'.keeping.mono (List.subset_append_right _ _), hm'.quote, h.early, h.fresh,
    h.cleared⟩

theorem initialize_rests (context : Pointer) (h : Inv count globals m) :
    (handles (@Sound dep.build.numPlayers)).wp (fun _ last m' => Rests last m')
      (ecallInitialize context) globals m := by
  unfold ecallInitialize
  apply get_spec
  split
  · exact ⟨count, h⟩
  · have hstate : globals.state = .uninitialized := not_not.mp ‹_›
    have hnone : globals.unauthorizedSettlement = none := h.early (.inl hstate)
    have hcount : count = 0 := h.fresh (.inl hstate)
    have hrests : ∀ (state : State) (last : Globals) (m : Memory),
        state = .uninitialized ∨ state = .initialized →
        Initialized (baseOf globals) count globals last m →
        Inv count { last with state := state } m := by
      rintro state _ m hearly ⟨depositWallet, rfl, hm, houtside⟩
      apply Inv.of_parts
      · refine hm.mono (List.append_subset.mpr ⟨?_, List.subset_append_left _ _⟩)
        exact List.subset_append_of_subset_right _ (List.subset_append_left _ _)
      · intro object hobject
        rcases hearly with rfl | rfl
        · simp [settled, setWallet, hnone] at hobject
        · simp [settled, setWallet, hnone] at hobject
      · intro object hobject hwallet
        exact houtside object hwallet (List.mem_append_left _ hobject)
      · exact fun _ => hnone
      · exact fun _ => hcount
      · rcases hearly with rfl | rfl
        · exact fun hcleared => by cases hcleared
        · exact fun hcleared => by cases hcleared
    rw [Contract.wp_bind]
    refine Contract.wp_mono ?_ (ecallInitializeImpl_spec context wallet_baseOf h.base)
    intro ret last m' hinitialized
    split
    · exact ⟨count, hrests .initialized last m' (.inr rfl) hinitialized⟩
    · have hlast : Inv count { last with state := last.state } m' := by
        apply hrests last.state last m' _ hinitialized
        obtain ⟨_, rfl, _⟩ := hinitialized
        exact .inl hstate
      exact ⟨count, hlast⟩

theorem clearContract_rests (context : Pointer)
    (payoutAddress collateralTransaction merklePaths : Bytes) (h : Inv count globals m) :
    (handles (@Sound dep.build.numPlayers)).wp (fun _ last m' => Rests last m')
      (ecallClearContract dep context payoutAddress collateralTransaction merklePaths) globals m := by
  unfold ecallClearContract
  apply get_spec
  split
  · exact ⟨count, h⟩
  · have hstate : globals.state = .initialized := not_not.mp ‹_›
    have hcount : count = 0 := h.fresh (.inr (.inl hstate))
    rw [Contract.wp_bind]
    refine Contract.wp_mono ?_ (ecallClearContractImpl_spec wallet_baseOf (h.early (.inr hstate))
      base_baseOf dep.build context payoutAddress collateralTransaction merklePaths h.base)
    rintro ret last m' ⟨settlement, signature, rfl, hconcluded⟩
    by_cases hret : ret = 0
    · rw [if_pos hret] at hconcluded
      obtain ⟨partialTransaction, own, rfl, rfl, hm'⟩ := hconcluded
      have hbase : Keeping (baseOf globals) count m' :=
        hm'.mono (List.subset_append_right [_, _] _)
      refine ⟨count, ?_⟩
      rw [if_neg (not_not.mpr hret)]
      apply Inv.of_parts
      · exact hbase
      · intro object hobject
        apply hm'.live object
        simp only [settled, setSettlement, if_true, Option.toList, List.map_cons, List.map_nil,
          List.mem_append, List.mem_cons, List.not_mem_nil] at hobject ⊢
        tauto
      · exact h.wallet_apart
      · simp
      · exact fun _ => hcount
      · exact fun _ => ⟨rfl, rfl⟩
    · rw [if_neg hret] at hconcluded
      obtain ⟨rfl, hm'⟩ := hconcluded
      refine ⟨count, ?_⟩
      rw [if_pos hret]
      apply Inv.of_parts
      · exact hm'
      · simp [settled, setSettlement]
      · exact h.wallet_apart
      · simp
      · simp
      · simp

theorem finalize_rests (context : Pointer) (h : Inv count globals m) :
    (handles (@Sound dep.build.numPlayers)).wp (fun _ last m' => Rests last m')
      (ecallFinalize dep context) globals m := by
  unfold ecallFinalize
  apply get_spec
  split
  · exact ⟨count, h⟩
  · have hstate : globals.state = .clearedContract := not_not.mp ‹_›
    obtain rfl : count = 0 := h.fresh (.inr (.inr hstate))
    obtain ⟨hsettlement, hown⟩ := h.cleared hstate
    obtain ⟨settlement, hsettlement⟩ := Option.isSome_iff_exists.mp hsettlement
    obtain ⟨own, hown⟩ := Option.isSome_iff_exists.mp hown
    have hsettled : settled globals = [(.partialTransaction, settlement), (.signature, own)] := by
      simp [settled, hsettlement, hown, hstate]
    have hm : Keeping ((.signature, own) :: (.partialTransaction, settlement) :: baseOf globals) 0
        m := by
      constructor
      · intro object hobject
        rcases List.mem_cons.mp hobject with rfl | hobject
        · exact h.settled_live _ (by simp [hsettled])
        · rcases List.mem_cons.mp hobject with rfl | hobject
          · exact h.settled_live _ (by simp [hsettled])
          · exact h.base.live object hobject
      · exact h.base.authorized
    have hover : ∀ ret : Int32, ∀ state : State, state = (if ret ≠ 0 then .aborted else .finalized) →
        state ≠ .uninitialized ∧ state ≠ .initialized ∧ state ≠ .clearedContract := by
      rintro ret _ rfl
      split
      · simp
      · simp
    rw [Contract.wp_bind]
    refine Contract.wp_mono ?_ (ecallFinalizeImpl_spec wallet_baseOf base_baseOf hsettlement hown
      context hm)
    intro ret last m' hfinalized
    obtain ⟨hne1, hne2, hne3⟩ := hover ret _ rfl
    rcases hfinalized with ⟨rfl, hm'⟩ | ⟨rfl, hm'⟩
    · refine ⟨0, ?_⟩
      apply Inv.of_parts
      · exact hm'.mono (List.subset_append_right [_, _] _)
      · intro object hobject
        simp only [settled, hne3, if_false, List.append_nil, hsettlement] at hobject
        obtain rfl := List.mem_singleton.mp hobject
        exact hm'.live _ (by simp)
      · exact h.wallet_apart
      · exact fun hearly => (hearly.elim hne1 hne2).elim
      · exact fun _ => rfl
      · exact fun hcleared => absurd hcleared hne3
    · refine ⟨1, ?_⟩
      apply Inv.of_parts
      · exact hm'
      · intro object hobject
        simp only [settled, hne3, if_false, List.append_nil] at hobject
        exact absurd hobject List.not_mem_nil
      · exact h.wallet_apart
      · exact fun _ => rfl
      · exact fun hfresh => (hfresh.elim hne1 fun hlate => hlate.elim hne2 hne3).elim
      · exact fun hcleared => absurd hcleared hne3

theorem refund_rests (context : Pointer) (blocks : Bytes) (h : Inv count globals m) :
    (handles (@Sound dep.build.numPlayers)).wp (fun _ last m' => Rests last m')
      (ecallRefund dep context blocks) globals m := by
  have hwallet : walletOf globals ⊆ stashed globals.stash ++ held globals :=
    List.subset_append_of_subset_right _ (List.subset_append_left _ _)
  unfold ecallRefund
  apply get_spec
  split
  · exact ⟨count, h⟩
  · refine bind_spec (ecallRefundImpl_spec hwallet h.keeping context blocks) ?_
    intro ret m' _ hm'
    split
    · refine ⟨count, ?_⟩
      apply Inv.of_parts
      · refine hm'.mono (List.append_subset.mpr ⟨List.subset_append_left _ _, ?_⟩)
        exact hwallet
      · intro object hobject
        simp only [settled, reduceCtorEq, if_false, List.append_nil] at hobject
        apply hm'.live object
        simp only [held, settled, List.mem_append]
        exact .inr (.inr (.inl hobject))
      · exact h.wallet_apart
      · simp
      · simp
      · simp
    · exact ⟨count, hm', h.apart, h.early, h.fresh, h.cleared⟩

theorem handle_rests (op : Ecall) (globals : Globals) (m : Memory) (h : Rests globals m) :
    (handles (@Sound dep.build.numPlayers)).wp (fun _ last m' => Rests last m') (handle dep op)
      globals m := by
  obtain ⟨count, h⟩ := h
  cases op with
  | ecallConnectToPlayer context => exact connect_rests context h
  | ecallInitialize context => exact initialize_rests context h
  | ecallClearContract context payoutAddress collateralTransaction merklePaths =>
    exact clearContract_rests context payoutAddress collateralTransaction merklePaths h
  | ecallFinalize context => exact finalize_rests context h
  | ecallRefund context blocks => exact refund_rests context blocks h

theorem initial_rests : Rests (initial dep) {} :=
  ⟨0, ⟨List.forall_mem_nil _, rfl⟩, List.forall_mem_nil _, fun _ => rfl, fun _ => rfl,
    by simp [initial]⟩

theorem Rests.kept (h : Rests globals m) : Kept globals m := by
  obtain ⟨count, h⟩ := h
  have hsettlement : ∀ settlement, globals.unauthorizedSettlement = some settlement →
      (.partialTransaction, settlement) ∈ m.live :=
    fun settlement hsome => h.settled_live _ (by simp [settled, hsome])
  refine ⟨?_, hsettlement, fun hstate => ?_⟩
  · intro wallet hsome object hobject
    apply h.base.live object (wallet_baseOf _)
    rw [walletOf, hsome]
    exact hobject
  · obtain ⟨hsome, hown⟩ := h.cleared hstate
    obtain ⟨settlement, hsome⟩ := Option.isSome_iff_exists.mp hsome
    obtain ⟨own, hown⟩ := Option.isSome_iff_exists.mp hown
    exact ⟨settlement, own, hsome, hsettlement settlement hsome, hown,
      h.settled_live _ (by simp [settled, hown, hstate])⟩

variable {steps : List (Step (enclave dep))} {last : Globals}

theorem run_kept (run : Run (enclave dep) (initial dep) steps last)
    (hhonours : (handles (@Sound dep.build.numPlayers)).Honours {} (eventsOf steps)) :
    Kept last ((eventsOf steps).foldl (handles (@Sound dep.build.numPlayers)).observe {}) :=
  (run.honoured initial_rests hhonours handle_rests).kept

theorem trace_sound (trace : Trace (enclave dep) (initial dep) steps last)
    (hhonours : (handles (@Sound dep.build.numPlayers)).Honours {} (eventsOf steps))
    {before : List (Event (Call Callback))} {β : Type} {c : Call Callback β}
    (hevents : eventsOf steps = before ++ [.issued c]) :
    Sound dep.build.numPlayers last
      (before.foldl (handles (@Sound dep.build.numPlayers)).observe {}) c :=
  trace.honoured_waiting initial_rests hhonours handle_rests hevents

end Runs

end Auntie.Guarantees.OperatorHandles

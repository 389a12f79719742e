import Auntie.Source.Common.Enclave

/-!
# Wallets and exports of `common/trusted/zcash.c`

Embeds `zcash.c:17-111`. The Rust library owns keys and addresses; what is exported
lies in a buffer of the C allocator. The exports differ in the length of the buffer
and in the function that fills it.
-/

namespace Auntie.Source
open Auntie.Interaction
variable {Callback σ : Type}

/-- `struct zcash_wallet`, with its own address. -/
structure Wallet where
  struct : Pointer
  key : Pointer
  address : Pointer
  deriving DecidableEq

abbrev sizeofWallet : Nat := 16

def zcashCreateWallet : Code Callback σ (Option Wallet) := do
  let some key ← issue .zcashCreateKey | return none
  let some address ← issue (.zcashDeriveAddress key) | do
    issue (.zcashReleaseKey key)
    return none
  let some struct ← issue (.malloc sizeofWallet) | do
    issue (.zcashReleaseAddress address)
    issue (.zcashReleaseKey key)
    return none
  return some ⟨struct, key, address⟩

def zcashReleaseWallet (wallet : Wallet) : Code Callback σ Unit := do
  issue (.zcashReleaseAddress wallet.address)
  issue (.zcashReleaseKey wallet.key)
  issue (.free wallet.struct)

/-- An export into a fresh buffer. -/
def zcashExport (length : Nat) (exportImpl : Call Callback (FixedBytes length)) :
    Code Callback σ (Except Int32 Buffer) := do
  let some address ← issue (.malloc length) | return .error (-enomem)
  let raw ← issue exportImpl
  return .ok ⟨address, raw.val⟩

def zcashExportKey (key : Pointer) : Code Callback σ (Except Int32 Buffer) :=
  zcashExport 32 (.zcashExportKeyImpl key)

def zcashExportAddress (address : Pointer) : Code Callback σ (Except Int32 Buffer) :=
  zcashExport 43 (.zcashExportAddressImpl address)

def zcashExportAdvice (advice : Pointer) : Code Callback σ (Except Int32 Buffer) :=
  zcashExport 128 (.zcashExportAdviceImpl advice)

def zcashExportSignature (signature : Pointer) : Code Callback σ (Except Int32 Buffer) :=
  zcashExport 64 (.zcashExportSignatureImpl signature)

/-- The length of a transaction is asked for first. -/
def zcashExportTransaction (transaction : Pointer) : Code Callback σ (Except Int32 Buffer) := do
  let length ← issue (.zcashGetRawTransactionLength transaction)
  zcashExport length (.zcashExportTransactionImpl transaction length)

/-- The value of a chain verifier; a panic of the Rust library aborts the enclave. -/
def chainVerifier : Blocks.Outcome → Code Callback σ Int32
  | .returned count => pure count
  | .panicked => fault

/-- The two tests on the count of a chain verifier: the error the ECALL returns, if any. -/
def chainError (delay : Int) (count : Int32) : Option Int32 :=
  if count < 0 then some count
  else if count.toInt < delay then some (-eagain)
  else none

theorem chainError_ne_zero {delay : Int} {count error : Int32}
    (h : chainError delay count = some error) : error ≠ 0 := by
  unfold chainError at h
  split at h
  · rename_i hneg
    cases h
    rintro rfl
    exact absurd hneg (by decide)
  · split at h
    · cases h
      decide
    · cases h

theorem chainError_none {delay : Int} {count : Int32} :
    chainError delay count = none ↔ 0 ≤ count.toInt ∧ delay ≤ count.toInt := by
  unfold chainError
  split
  · rename_i hneg
    have hneg := int32_neg.mp hneg
    simp only [reduceCtorEq, false_iff]
    omega
  · rename_i hnonneg
    have hnonneg := int32_neg.not.mp hnonneg
    split
    · simp only [reduceCtorEq, false_iff]
      omega
    · simp only [true_iff]
      omega

/-- Forty headers are enough for a refund. -/
theorem zeroHeaders_pass : chainError zeroDeployment.build.refundDelayBlocks
    (Blocks.zcashBlocksSinceCheckpoint zeroDeployment.crates zeroDeployment.build
      (Blocks.zeroHeaders 40)) = none := by
  have hcounted : Blocks.zcashBlocksSinceCheckpoint zeroDeployment.crates zeroDeployment.build
      (Blocks.zeroHeaders 40) = Int32.ofNat 40 := Blocks.zeroHeaders_counted 40
  rw [hcounted]
  decide

section Frame
open Program (Within)
variable {permits : Permits Callback} {keeps : σ → Prop}

theorem zcashCreateWallet_within :
    (zcashCreateWallet : Code Callback σ _).Within (Call.Permitted permits) keeps := by
  unfold zcashCreateWallet
  repeat' with_reducible first
    | intro _
    | apply Within.issue
    | apply Within.value
    | apply Within.bind
    | split
  all_goals trivial

theorem zcashReleaseWallet_within (wallet : Wallet) :
    (zcashReleaseWallet wallet : Code Callback σ _).Within (Call.Permitted permits) keeps :=
  Within.bind (Within.issue trivial) fun _ =>
    Within.bind (Within.issue trivial) fun _ => Within.issue trivial

theorem zcashCreateWallet_unmonitored {state : σ} {post : Option Wallet → σ → Unit → Prop}
    (hpost : ∀ wallet, post wallet state ()) :
    wp ({} : Monitor (Call Callback) σ Unit) post zcashCreateWallet state () := by
  have hwithin : (zcashCreateWallet : Code Callback σ _).Within
      (Call.Permitted ({} : Permits Callback)) (state = ·) := zcashCreateWallet_within
  exact hwithin.unmonitored hpost

theorem zcashReleaseWallet_unmonitored {wallet : Wallet} {state : σ} {post : Unit → σ → Unit → Prop}
    (hpost : post () state ()) :
    wp ({} : Monitor (Call Callback) σ Unit) post (zcashReleaseWallet wallet) state () := by
  have hwithin : (zcashReleaseWallet wallet : Code Callback σ _).Within
      (Call.Permitted ({} : Permits Callback)) (state = ·) := zcashReleaseWallet_within wallet
  exact hwithin.unmonitored fun _ => hpost

theorem zcashExport_within {allowed : {β : Type} → Call Callback β → Prop} {length : Nat}
    {exportImpl : Call Callback (FixedBytes length)} (hmalloc : allowed (.malloc length))
    (hexport : allowed exportImpl) :
    (zcashExport length exportImpl : Code Callback σ _).Within allowed keeps := by
  unfold zcashExport
  refine Within.bind (Within.issue hmalloc) fun address => ?_
  cases address with
  | none => exact Within.value _
  | some address => exact Within.bind (Within.issue hexport) fun _ => Within.value _

theorem chainVerifier_within (outcome : Blocks.Outcome) :
    (chainVerifier outcome : Code Callback σ _).Within (Call.Permitted permits) keeps := by
  cases outcome with
  | returned count => exact Within.value count
  | panicked => exact fault_within trivial

end Frame

end Auntie.Source

import Auntie.Source.Common.Zcash

/-!
# The keys of a wallet

Both enclaves create wallets and later export what is in them. Which calls a wallet was made by,
and which bytes an export hands over, is the same for either.
-/

namespace Auntie.Guarantees.WalletKeys
open Auntie.Source Auntie.Interaction
variable {Callback σ : Type} {state : σ} {events later : List (Event (Call Callback))}
variable {wallet : Wallet}

/-- The key was created, and the address derived from it. -/
structure Made (events : List (Event (Call Callback))) (wallet : Wallet) : Prop where
  key : .answered .zcashCreateKey (some wallet.key) ∈ events
  address : .answered (.zcashDeriveAddress wallet.key) (some wallet.address) ∈ events

/-- The bytes are those of the key. -/
def ExportsKey (events : List (Event (Call Callback))) (wallet : Wallet) (key : Bytes) : Prop :=
  ∃ raw : FixedBytes 32, .answered (.zcashExportKeyImpl wallet.key) raw ∈ events ∧ raw.val = key

/-- The bytes are those of the address. -/
def ExportsAddress (events : List (Event (Call Callback))) (wallet : Wallet) (address : Bytes) :
    Prop :=
  ∃ raw : FixedBytes 43, .answered (.zcashExportAddressImpl wallet.address) raw ∈ events ∧
    raw.val = address

/-- What an export leads to: the bytes of the object, or a failed allocation. -/
def Exported {length : Nat} (exportImpl : Call Callback (FixedBytes length))
    (events : List (Event (Call Callback))) : Except Int32 Buffer → Prop
  | .error _ => .answered (.malloc length) none ∈ events
  | .ok buffer => ∃ raw, .answered exportImpl raw ∈ events ∧ raw.val = buffer.contents

theorem Made.mono (h : Made events wallet) (hlater : events ⊆ later) : Made later wallet :=
  ⟨hlater h.key, hlater h.address⟩

theorem ExportsAddress.mono {address : Bytes} (h : ExportsAddress events wallet address)
    (hlater : events ⊆ later) : ExportsAddress later wallet address := by
  obtain ⟨raw, hraw, hvalue⟩ := h
  exact ⟨raw, hlater hraw, hvalue⟩

theorem zcashCreateWallet_makes :
    wp tape (fun wallet last events => last = state ∧ ∀ made, wallet = some made → Made events made)
      (zcashCreateWallet : Code Callback σ _) state [] := by
  rw [zcashCreateWallet, wp_bind, wp_tape_issue]
  intro key
  cases key with
  | none => exact ⟨rfl, by simp⟩
  | some key =>
    rw [wp_bind, wp_tape_issue]
    intro address
    cases address with
    | none =>
      simp only [wp_bind, wp_tape_issue, wp_pure]
      exact fun _ => ⟨trivial, by simp⟩
    | some address =>
      rw [wp_bind, wp_tape_issue]
      intro struct
      cases struct with
      | none =>
        simp only [wp_bind, wp_tape_issue, wp_pure]
        exact fun _ _ => ⟨trivial, by simp⟩
      | some struct =>
        rw [wp_pure]
        refine ⟨rfl, fun made hmade => ?_⟩
        cases hmade
        exact ⟨by simp, by simp⟩

theorem zcashExport_exports {length : Nat} (exportImpl : Call Callback (FixedBytes length)) :
    wp tape (fun result last events => last = state ∧ Exported exportImpl events result)
      (zcashExport length exportImpl : Code Callback σ _) state [] := by
  rw [zcashExport, wp_bind, wp_tape_issue]
  intro address
  cases address with
  | none => exact ⟨rfl, by simp [Exported]⟩
  | some address =>
    simp only [wp_bind, wp_tape_issue, wp_pure]
    intro raw
    exact ⟨trivial, raw, by simp, rfl⟩

section Recording
variable {demands : List (Event (Call Callback)) → {β : Type} → Call Callback β → Prop}
variable {M : Type*}
variable (hinternal : ∀ {β : Type} (c : Call Callback β), c.Internal → ∀ events, demands events c)
include hinternal

/-- A wallet is created where only the calls that matter beyond the enclave demand something. -/
theorem zcashCreateWallet_recorded
    {post : Option Wallet → σ → List (Event (Call Callback)) → Prop}
    (hpost : ∀ wallet later, (∀ made, wallet = some made → Made later made) →
      post wallet state (events ++ later)) :
    wp (recording demands) post zcashCreateWallet state events := by
  have hwithin : (zcashCreateWallet : Code Callback σ _).Within Call.Internal (state = ·) := by
    unfold zcashCreateWallet
    repeat' with_reducible first
      | intro _
      | apply Program.Within.issue
      | apply Program.Within.value
      | apply Program.Within.bind
      | split
    all_goals trivial
  refine hwithin.recorded hinternal rfl fun wallet last later hexec => ?_
  obtain ⟨rfl, hmade⟩ := hexec.taped zcashCreateWallet_makes
  exact hpost wallet later hmade

theorem zcashReleaseWallet_recorded {wallet : Wallet}
    {post : Unit → σ → List (Event (Call Callback)) → Prop}
    (hpost : ∀ later, post () state (events ++ later)) :
    wp (recording demands) post (zcashReleaseWallet wallet) state events := by
  simp only [zcashReleaseWallet, wp_bind, wp_recording_issue, List.append_assoc]
  exact ⟨hinternal (.zcashReleaseAddress wallet.address) trivial _, fun _ =>
    ⟨hinternal (.zcashReleaseKey wallet.key) trivial _, fun _ =>
      ⟨hinternal (.free wallet.struct) trivial _, fun _ => hpost _⟩⟩⟩

theorem zcashExport_recorded {length : Nat} {exportImpl : Call Callback (FixedBytes length)}
    {post : Except Int32 Buffer → σ → List (Event (Call Callback)) → Prop}
    (hexport : exportImpl.Internal)
    (hpost : ∀ result later, Exported exportImpl later result →
      post result state (events ++ later)) :
    wp (recording demands) post (zcashExport length exportImpl) state events := by
  have hwithin : (zcashExport length exportImpl : Code Callback σ _).Within Call.Internal
      (state = ·) := by
    refine Program.Within.bind (Program.Within.issue trivial) fun address => ?_
    cases address with
    | none => exact Program.Within.value _
    | some address =>
      exact Program.Within.bind (Program.Within.issue hexport) fun _ => Program.Within.value _
  refine hwithin.recorded hinternal rfl fun result last later hexec => ?_
  obtain ⟨rfl, hexported⟩ := hexec.taped (zcashExport_exports exportImpl)
  exact hpost result later hexported

end Recording

end Auntie.Guarantees.WalletKeys
